import FlashRing.Proofs.Composition
import FlashRing.Proofs.Operation

/-!
Stores whose power is steady since they were formatted. Main statement: every operation, those on
arrays and reports included, leaves such a store in service.
-/

namespace FlashRing.Store

/-- The power is steady and the store serves some contents. -/
structure InService (store : Store Ram) : Prop where
  steady : store.device.power = .steady
  serves : ∃ contents, store.Serves contents

/-- The stores that operations and restarts lead to. -/
inductive Reachable (formatted : Store Ram) : Store Ram → Prop where
  | start : Reachable formatted formatted
  | request {store : Store Ram} (request : Request) :
    Reachable formatted store → Reachable formatted (left request.run store)
  | restart {store : Store Ram} :
    Reachable formatted store → Reachable formatted (left restart store)

variable {α β : Type}

theorem Performs.eraseCounter {store : Store Ram} {roles : Roles} (hs : store.Fits)
    (hr : store.roles = some roles) (ha : roles.active < store.ring.count) :
    Performs Store.eraseCounter store []
      (.ok (Header.decode (store.flash roles.active).header).counterOrZero) store.roles := by
  refine fenced ?_ rfl
  exact bind_read (activePage hr) (bind_read (header hs ha) (pure store _))

theorem Performs.inspect {store : Store Ram} (hs : store.Fits) :
    Performs Store.inspect store []
      (.ok (store.ring.pages.map fun page =>
        PageReport.ofWords page (page.addresses.map store.device.word))) store.roles := by
  have hreports : ∀ power, (store.ring.pages.mapM fun page =>
      return PageReport.ofWords page (← page.contents (store.device.powered power)) :
        Except Error (List PageReport)) =
      .ok (store.ring.pages.map fun page =>
        PageReport.ofWords page (page.addresses.map store.device.word)) := by
    intro power
    apply mapM_eq_ok
    intro page hm
    obtain ⟨i, hi, rfl⟩ := List.mem_map.mp hm
    have hread : (store.ring.page i).contents (store.device.powered power) =
        .ok ((store.ring.page i).addresses.map store.device.word) :=
      PageRing.contents_page hs (List.mem_range.mp hi)
    rw [hread]
    rfl
  exact (get_bind (fun _ => rfl) (observe hreports)).fenced rfl

/-- However the operation ends, the store stays in service. -/
def Keeps (operation : StoreM Ram α) : Prop :=
  ∀ store, InService store → InService (left operation store)

namespace Keeps

theorem of_unchanged {operation : StoreM Ram α} (h : ∀ store, left operation store = store) :
    Keeps operation := by
  intro store hs
  rwa [h]

theorem pure (a : α) : Keeps (Pure.pure a) :=
  of_unchanged fun _ => rfl

theorem throw (e : Error) : Keeps (MonadExcept.throw e : StoreM Ram α) :=
  of_unchanged fun _ => rfl

theorem bind {x : StoreM Ram α} {f : α → StoreM Ram β} (hx : Keeps x) (hf : ∀ a, Keeps (f a)) :
    Keeps (x >>= f) := by
  intro store hs
  have hafter := hx store hs
  rw [left] at hafter
  rw [left_bind]
  cases hrun : x store with
  | ok a after =>
    rw [hrun] at hafter
    exact hf a after hafter
  | error e after =>
    rw [hrun] at hafter
    exact hafter

theorem run (operation : Operation) : Keeps (operation.run : StoreM Ram Reply) := by
  rintro store ⟨hp, contents, h⟩
  rcases h.outcome operation with ⟨final, hrun, hserves, -, hpower⟩ | ⟨_, _, _, _, _, _, _, hno, -⟩
  · rw [left_of_run hrun]
    exact ⟨hpower hp, _, hserves⟩
  · exact absurd hp hno

theorem of_map {x : StoreM Ram α} {g : α → Reply}
    (h : Keeps (do return g (← x) : StoreM Ram Reply)) : Keeps x := by
  intro store hs
  rw [← left_map x g store]
  exact h store hs

theorem read (key : UInt16) : Keeps (Store.read key : StoreM Ram (Option UInt16)) :=
  of_map (run (.read key))

theorem write (key payload : UInt16) : Keeps (Store.write key payload : StoreM Ram Unit) :=
  of_map (run (.write key payload))

theorem delete (key : UInt16) : Keeps (Store.delete key : StoreM Ram Bool) :=
  of_map (run (.delete key))

theorem init : Keeps (Store.init : StoreM Ram Unit) :=
  of_map (run .init)

theorem restart : Keeps (Store.restart : StoreM Ram Unit) :=
  of_map (run .restart)

theorem compact : Keeps (Store.compact : StoreM Ram Unit) :=
  of_map (run .compact)

theorem entries : Keeps (Store.entries : StoreM Ram (List (UInt16 × UInt16))) :=
  of_map (run .entries)

theorem format : Keeps (Store.format : StoreM Ram Unit) := by
  rintro store ⟨hp, contents, h⟩
  have ha := h.retains.attached
  have hout : Outcome Store.format store (.ok ()) (fun _ => True) Contents.empty :=
    ha.leads_format.outcome ha
  rcases hout with ⟨final, hrun, hserves, -, hpower⟩ | ⟨_, _, _, _, _, _, _, hno, -⟩
  · rw [left_of_run hrun]
    exact ⟨hpower hp, _, hserves⟩
  · exact absurd hp hno

theorem readyRoles : Keeps (Store.readyRoles : StoreM Ram Roles) := by
  apply of_unchanged
  rintro ⟨device, config, ring, roles⟩
  cases roles <;> rfl

theorem composable : Composable @Keeps where
  pure := pure
  throw _ := throw _
  bind := bind
  readyRoles := readyRoles
  read := read
  write := write
  delete := delete

/-- What only reads leaves the store as it is. -/
theorem of_reading {operation : StoreM Ram α}
    (h : ∀ store active count used, store.Settled active count used →
      ∃ out, Performs operation store [] out store.roles) : Keeps operation := by
  rintro store ⟨hp, contents, active, count, used, hs, hc⟩
  obtain ⟨out, hread⟩ := h store active count used hs
  rw [left_of_run hread.run_nothing]
  exact ⟨hp, contents, active, count, used, hs, hc⟩

theorem eraseCounter : Keeps (Store.eraseCounter : StoreM Ram Nat) :=
  of_reading fun _ _ _ _ hs =>
    ⟨_, Performs.eraseCounter hs.attached.fits hs.roles hs.valid.1⟩

theorem inspect : Keeps (Store.inspect : StoreM Ram (List PageReport)) :=
  of_reading fun _ _ _ _ hs => ⟨_, Performs.inspect hs.attached.fits⟩

/-- Whatever is asked of a store in service, it stays in service. -/
theorem request (request : Request) : Keeps (request.run : StoreM Ram Reply) :=
  composable.request (fun _ => init) compact eraseCounter entries inspect fun _ => format

end Keeps

theorem Reachable.inService {formatted store : Store Ram} (h : Reachable formatted store)
    (hs : formatted.InService) : store.InService := by
  induction h with
  | start => exact hs
  | request request _ ih => exact Keeps.request request _ ih
  | restart _ ih => exact Keeps.restart _ ih

theorem inService_of_format {device : Ram} {config : Config} {store formatted : Store Ram}
    (hp : device.power = .steady) (ha : attach device config = .ok store)
    (hf : format store = .ok () formatted) : formatted.InService := by
  obtain ⟨hserves, -, hpower⟩ := serves_of_format ha hf
  exact ⟨hpower hp, _, hserves⟩

end FlashRing.Store
