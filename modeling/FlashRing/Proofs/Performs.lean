import FlashRing.Proofs.Flash
import FlashRing.Store.Basic

/-!
What an operation does to flash kept in memory, for every power supply at once: the changes it
makes one after the other, and its result. If the power does not last for all of them, exactly the
first ones are made and the operation fails.
-/

namespace FlashRing

namespace Power

/-- The power is enough for so many programs and erases. -/
def Lasts : Power → Nat → Prop
  | .steady, _ => True
  | .budget left, n => n ≤ left
  | .off, n => n = 0

instance (power : Power) (n : Nat) : Decidable (power.Lasts n) :=
  match power with
  | .steady => inferInstanceAs (Decidable True)
  | .budget left => inferInstanceAs (Decidable (n ≤ left))
  | .off => inferInstanceAs (Decidable (n = 0))

/-- The power that is left after so many programs and erases. -/
def after : Power → Nat → Power
  | .steady, _ => .steady
  | .budget left, n => .budget (left - n)
  | .off, _ => .off

/-- How many programs and erases still succeed where the power does not last. -/
def reach : Power → Nat
  | .steady => 0
  | .budget left => left
  | .off => 0

theorem lasts_zero (power : Power) : power.Lasts 0 := by
  cases power <;> simp [Lasts]

theorem after_zero (power : Power) : power.after 0 = power := by
  cases power <;> rfl

theorem lasts_add {power : Power} {m n : Nat} :
    power.Lasts (m + n) ↔ power.Lasts m ∧ (power.after m).Lasts n := by
  cases power with
  | steady => simp [Lasts, after]
  | budget left =>
    simp only [Lasts, after]
    omega
  | off =>
    simp only [Lasts, after]
    omega

theorem after_add (power : Power) (m n : Nat) : power.after (m + n) = (power.after m).after n := by
  cases power <;> simp [after, Nat.sub_add_eq]

theorem reach_lt {power : Power} {n : Nat} (h : ¬power.Lasts n) : power.reach < n := by
  cases power with
  | steady => exact absurd trivial h
  | budget left =>
    simp only [Lasts, reach] at h ⊢
    omega
  | off =>
    simp only [Lasts, reach] at h ⊢
    omega

theorem reach_after {power : Power} {m n : Nat} (hm : power.Lasts m)
    (hn : ¬(power.after m).Lasts n) : power.reach = m + (power.after m).reach := by
  cases power with
  | steady => exact absurd trivial hn
  | budget left =>
    simp only [Lasts, reach, after] at hm ⊢
    omega
  | off =>
    simp only [Lasts, reach, after] at hm ⊢
    omega

theorem reach_of_not_lasts {power : Power} (h : ¬power.Lasts 1) : power.reach = 0 := by
  have hlt := reach_lt h
  omega

theorem draw_of_lasts {power : Power} (operation : Mutation) (h : power.Lasts 1) :
    draw operation power = .ok () (power.after 1) := by
  match power, h with
  | .steady, _ => rfl
  | .budget (_ + 1), _ => rfl
  | .budget 0, h => exact absurd h (by simp [Lasts])
  | .off, h => exact absurd h (by simp [Lasts])

theorem draw_of_not_lasts {power : Power} (operation : Mutation) (h : ¬power.Lasts 1) :
    ∃ fault, draw operation power = .error fault .off := by
  match power, h with
  | .steady, h => exact absurd trivial h
  | .budget (_ + 1), h => exact absurd (show 1 ≤ _ + 1 by omega) h
  | .budget 0, _ => exact ⟨_, rfl⟩
  | .off, _ => exact ⟨_, rfl⟩

end Power

namespace Store

variable {α β : Type}

/-- The ring was laid out on the device. -/
def Fits (store : Store Ram) : Prop :=
  store.ring.geometry = store.device.geometry

/-- The pages of the ring. -/
def flash (store : Store Ram) : Flash :=
  store.ring.flash store.device

/-- The store with another power supply. -/
def powered (store : Store Ram) (power : Power) : Store Ram :=
  { store with device := store.device.powered power }

/-- The store after changes of its flash, with other pages in use. -/
def after (store : Store Ram) (changes : List Change) (roles : Option Roles) : Store Ram :=
  { store with device := store.ring.commitAll store.device changes, roles := roles }

/-- The device failed. -/
def isCut : Except Error α → Bool
  | .ok _ => false
  | .error e => e.isDeviceFailure

/-- An operation that ended. -/
def ending (out : Except Error α) (store : Store Ram) : EStateM.Result Error (Store Ram) α :=
  match out with
  | .ok a => .ok a store
  | .error e => .error e store

/-- The operation makes exactly these changes and ends like this, unless the power goes: then it
makes as many of them as it has power for and fails. -/
def Performs (operation : StoreM Ram α) (store : Store Ram) (changes : List Change)
    (out : Except Error α) (roles : Option Roles) : Prop :=
  ∀ power : Power,
    (power.Lasts changes.length → operation (store.powered power) =
      ending out ((store.after changes roles).powered (power.after changes.length))) ∧
    (¬power.Lasts changes.length → ∃ fault left, operation (store.powered power) =
      .error (.blockDevice fault) ((store.after (changes.take power.reach) left).powered .off))

theorem run_bind {δ : Type} {x : StoreM δ α} {store final : Store δ} {a : α}
    (h : x store = .ok a final) (f : α → StoreM δ β) : (x >>= f) store = f a final := by
  change EStateM.bind x f store = _
  simp only [EStateM.bind, h]

theorem run_bind_error {δ : Type} {x : StoreM δ α} {store final : Store δ} {e : Error}
    (h : x store = .error e final) (f : α → StoreM δ β) : (x >>= f) store = .error e final := by
  change EStateM.bind x f store = _
  simp only [EStateM.bind, h]

theorem after_after (store : Store Ram) (first second : List Change) (a b : Option Roles) :
    (store.after first a).after second b = store.after (first ++ second) b := by
  simp [after, PageRing.commitAll, List.foldl_append]

theorem powered_commitAll (ring : PageRing) (ram : Ram) (changes : List Change) (power : Power) :
    ring.commitAll (ram.powered power) changes = (ring.commitAll ram changes).powered power := by
  induction changes generalizing ram with
  | nil => rfl
  | cons change rest ih =>
    have hc : ring.commit (ram.powered power) change = (ring.commit ram change).powered power := by
      cases change <;> rfl
    simp only [PageRing.commitAll, List.foldl_cons] at ih ⊢
    rw [hc, ih]

theorem powered_after (store : Store Ram) (changes : List Change) (roles : Option Roles)
    (power : Power) :
    (store.powered power).after changes roles = (store.after changes roles).powered power := by
  simp only [after, powered, powered_commitAll]

theorem fits_after {store : Store Ram} (h : store.Fits) (changes : List Change)
    (roles : Option Roles) : (store.after changes roles).Fits :=
  h.trans (PageRing.geometry_commitAll store.ring store.device changes).symm

theorem flash_after {store : Store Ram} (h : store.Fits) {changes : List Change}
    (hc : ∀ change ∈ changes, store.ring.Holds change) (roles : Option Roles) :
    (store.after changes roles).flash = store.flash.applyAll store.ring.capacity changes :=
  PageRing.flash_commitAll h hc

theorem flash_after_one {store : Store Ram} (h : store.Fits) {change : Change}
    (hc : store.ring.Holds change) (roles : Option Roles) :
    (store.after [change] roles).flash = change.apply store.ring.capacity store.flash := by
  apply flash_after h
  intro other ho
  rwa [List.mem_singleton.mp ho]

theorem flash_after_take {store : Store Ram} (h : store.Fits) {changes : List Change}
    (hc : ∀ change ∈ changes, store.ring.Holds change) (n : Nat) (roles : Option Roles) :
    (store.after (changes.take n) roles).flash =
      store.flash.applyAll store.ring.capacity (changes.take n) :=
  flash_after h (fun change hm => hc change (List.mem_of_mem_take hm)) roles

namespace Performs

theorem at_power {operation : StoreM Ram α} {store : Store Ram} {changes : List Change}
    {out : Except Error α} {roles : Option Roles} (h : Performs operation store changes out roles)
    (power : Power) : Performs operation (store.powered power) changes out roles := by
  intro other
  simp only [powered_after]
  exact h other

/-- No power is needed to change nothing. -/
theorem of_nothing {operation : StoreM Ram α} {store : Store Ram} {out : Except Error α}
    {roles : Option Roles}
    (h : ∀ power, operation (store.powered power) =
      ending out ((store.after [] roles).powered power)) :
    Performs operation store [] out roles := by
  intro power
  refine ⟨fun _ => ?_, fun hn => absurd power.lasts_zero hn⟩
  rw [List.length_nil, Power.after_zero]
  exact h power

theorem pure (store : Store Ram) (a : α) :
    Performs (Pure.pure a) store [] (.ok a) store.roles :=
  of_nothing fun _ => rfl

theorem throw (store : Store Ram) (e : Error) :
    Performs (MonadExcept.throw e : StoreM Ram α) store [] (.error e) store.roles :=
  of_nothing fun _ => rfl

/-- One operation after another makes the changes of both. -/
theorem bind {x : StoreM Ram α} {f : α → StoreM Ram β} {store : Store Ram} {a : α}
    {first second : List Change} {out : Except Error β} {left right : Option Roles}
    (hx : Performs x store first (.ok a) left)
    (hf : Performs (f a) (store.after first left) second out right) :
    Performs (x >>= f) store (first ++ second) out right := by
  intro power
  rw [List.length_append]
  -- Where the power lasts for the first operation, what is left of it decides on the second.
  by_cases hm : power.Lasts first.length
  · have hxp := (hx power).1 hm
    have hstep : (x >>= f) (store.powered power) =
        f a ((store.after first left).powered (power.after first.length)) := run_bind hxp f
    refine ⟨fun hall => ?_, fun hnot => ?_⟩
    · rw [hstep, (hf (power.after first.length)).1 (Power.lasts_add.mp hall).2, after_after,
        Power.after_add]
    · have hn : ¬(power.after first.length).Lasts second.length :=
        fun h => hnot (Power.lasts_add.mpr ⟨hm, h⟩)
      obtain ⟨fault, roles, h⟩ := (hf (power.after first.length)).2 hn
      refine ⟨fault, roles, ?_⟩
      rw [hstep, h, after_after, Power.reach_after hm hn, List.take_length_add_append]
  · refine ⟨fun hall => absurd (Power.lasts_add.mp hall).1 hm, fun _ => ?_⟩
    obtain ⟨fault, roles, h⟩ := (hx power).2 hm
    refine ⟨fault, roles, ?_⟩
    rw [List.take_append_of_le_length (Nat.le_of_lt (Power.reach_lt hm))]
    exact run_bind_error h f

theorem bind_read {x : StoreM Ram α} {f : α → StoreM Ram β} {store : Store Ram} {a : α}
    {changes : List Change} {out : Except Error β} {right : Option Roles}
    (hx : Performs x store [] (.ok a) store.roles) (hf : Performs (f a) store changes out right) :
    Performs (x >>= f) store changes out right :=
  bind hx hf

theorem bind_last {x : StoreM Ram α} {f : α → StoreM Ram β} {store : Store Ram} {a : α}
    {changes : List Change} {out : Except Error β} {left right : Option Roles}
    (hx : Performs x store changes (.ok a) left)
    (hf : Performs (f a) (store.after changes left) [] out right) :
    Performs (x >>= f) store changes out right := by
  have h := bind hx hf
  rwa [List.append_nil] at h

theorem bind_error {x : StoreM Ram α} {f : α → StoreM Ram β} {store : Store Ram} {e : Error}
    {changes : List Change} {left : Option Roles}
    (hx : Performs x store changes (.error e) left) :
    Performs (x >>= f) store changes (.error e) left := by
  intro power
  refine ⟨fun hl => run_bind_error ((hx power).1 hl) f, fun hn => ?_⟩
  obtain ⟨fault, roles, h⟩ := (hx power).2 hn
  exact ⟨fault, roles, run_bind_error h f⟩

theorem observe {reading : Ram → Except Error α} {store : Store Ram} {out : Except Error α}
    (h : ∀ power, reading (store.device.powered power) = out) :
    Performs (Store.observe reading) store [] out store.roles := by
  apply of_nothing
  intro power
  change (match reading (store.device.powered power) with
    | .ok a => EStateM.Result.ok a (store.powered power)
    | .error e => .error e (store.powered power)) = _
  rw [h power]
  cases out <;> rfl

theorem setRoles (store : Store Ram) (roles : Option Roles) :
    Performs (Store.setRoles roles) store [] (.ok ()) roles :=
  of_nothing fun _ => rfl

theorem setRoles_bind {f : Unit → StoreM Ram β} {store : Store Ram} {changes : List Change}
    {out : Except Error β} {left right : Option Roles}
    (hf : Performs (f ()) (store.after [] left) changes out right) :
    Performs (Store.setRoles left >>= f) store changes out right :=
  bind (setRoles store left) hf

/-- An operation that looks at its store, but not at the power. -/
theorem get_bind {f : Store Ram → StoreM Ram β} {store : Store Ram} {changes : List Change}
    {out : Except Error β} {roles : Option Roles} (hf : ∀ power, f (store.powered power) = f store)
    (h : Performs (f store) store changes out roles) :
    Performs (get >>= f) store changes out roles := by
  intro power
  change (_ → f (store.powered power) (store.powered power) = _) ∧
    (_ → ∃ fault left, f (store.powered power) (store.powered power) = _)
  rw [hf power]
  exact h power

theorem forM_nil (f : α → StoreM Ram PUnit) (store : Store Ram) :
    Performs (([] : List α).forM f) store [] (.ok ()) store.roles :=
  pure store ()

theorem forM_cons {f : α → StoreM Ram PUnit} {a : α} {rest : List α} {store : Store Ram}
    {first second : List Change} {out : Except Error PUnit} {left right : Option Roles}
    (ha : Performs (f a) store first (.ok ()) left)
    (hrest : Performs (rest.forM f) (store.after first left) second out right) :
    Performs ((a :: rest).forM f) store (first ++ second) out right :=
  bind ha hrest

theorem program {store : Store Ram} {address : Nat} {word : UInt32} {change : Change}
    (hlt : address < store.device.geometry.totalWords)
    (hc : ∀ ram, store.ring.commit ram change = ram.programmed address word) :
    Performs (Store.program address word) store [change] (.ok ()) store.roles := by
  intro power
  have hrun : ∀ left, Power.draw .program power = .ok () left →
      Store.program address word (store.powered power) =
        .ok () ((store.after [change] store.roles).powered left) := by
    intro left hd
    have hg : ¬store.device.geometry.totalWords < address + 1 := by omega
    simp only [Store.program, alter, Device.program, Ram.program, powered, Ram.powered,
      List.length_singleton, if_neg hg, hd]
    rw [after, PageRing.commitAll, List.foldl_cons, List.foldl_nil, hc]
    rfl
  refine ⟨fun h => hrun _ (Power.draw_of_lasts .program h), fun h => ?_⟩
  obtain ⟨fault, hd⟩ := Power.draw_of_not_lasts .program h
  have hz := Power.reach_of_not_lasts h
  have hg : ¬store.device.geometry.totalWords < address + 1 := by omega
  refine ⟨fault, store.roles, ?_⟩
  simp only [Store.program, alter, Device.program, Ram.program, powered, Ram.powered,
    List.length_singleton, if_neg hg, hd, hz, List.take_zero]
  rfl

theorem erase {store : Store Ram} (hs : store.Fits) {i : Nat} (hi : i < store.ring.count) :
    Performs (Store.erase (store.ring.page i)) store [.erase i] (.ok ()) store.roles := by
  intro power
  have hg : ¬store.device.geometry.pageCount ≤ (store.ring.page i).devicePage := by
    have h := store.ring.base_add_count_le
    rw [hs] at h
    change ¬store.device.geometry.pageCount ≤ store.ring.base + i
    omega
  refine ⟨fun h => ?_, fun h => ?_⟩
  · simp only [Store.erase, alter, Device.erase, Ram.erase, powered, Ram.powered, if_neg hg,
      Power.draw_of_lasts .erase h]
    rfl
  · obtain ⟨fault, hd⟩ := Power.draw_of_not_lasts .erase h
    have hz := Power.reach_of_not_lasts h
    refine ⟨fault, store.roles, ?_⟩
    simp only [Store.erase, alter, Device.erase, Ram.erase, powered, Ram.powered, if_neg hg, hd,
      hz, List.take_zero]
    rfl

theorem program_header {store : Store Ram} (hs : store.Fits) {i : Nat} (hi : i < store.ring.count)
    (word : UInt32) :
    Performs (Store.program (store.ring.page i).headerAddress word) store [.header i word]
      (.ok ()) store.roles := by
  have hw : 0 < store.ring.geometry.pageWords := Nat.zero_lt_of_lt store.ring.capacity_lt
  exact program (hs ▸ PageRing.start_add_lt hi hw) fun _ => rfl

theorem program_slot {store : Store Ram} (hs : store.Fits) {i place : Nat}
    (hi : i < store.ring.count) (hp : place < store.ring.capacity) (word : UInt32) :
    Performs (Store.program ((store.ring.page i).slotAddress place) word) store
      [.slot i place word] (.ok ()) store.roles := by
  have hlt : (store.ring.page i).slotAddress place < store.device.geometry.totalWords :=
    hs ▸ PageRing.slotAddress_lt hi hp
  exact program hlt fun _ => rfl

/-- The fence leaves what an operation does as it is. -/
theorem fenced {x : StoreM Ram α} {store : Store Ram} {changes : List Change}
    {out : Except Error α} {roles : Option Roles} (h : Performs x store changes out roles)
    (hout : isCut out = false) :
    Performs (Store.fenced x) store changes out roles := by
  intro power
  refine ⟨fun hl => ?_, fun hn => ?_⟩
  · have hx := (h power).1 hl
    simp only [Store.fenced, hx]
    cases out with
    | ok a => rfl
    | error e =>
      rw [isCut] at hout
      simp only [ending, hout, Bool.false_eq_true, ↓reduceIte]
  · obtain ⟨fault, left, hx⟩ := (h power).2 hn
    refine ⟨fault, none, ?_⟩
    simp only [Store.fenced, hx]
    rfl

theorem readyRoles {store : Store Ram} {roles : Roles} (h : store.roles = some roles) :
    Performs Store.readyRoles store [] (.ok roles) store.roles := by
  apply get_bind (fun _ => rfl)
  simp only [h]
  rw [← h]
  exact pure store roles

theorem activePage {store : Store Ram} {roles : Roles} (h : store.roles = some roles) :
    Performs Store.activePage store [] (.ok (store.ring.page roles.active)) store.roles :=
  bind_read (readyRoles h) (get_bind (fun _ => rfl) (pure store _))

theorem checkKey {store : Store Ram} {key : UInt16} (h : isCallerKey key = true) :
    Performs (Store.checkKey key) store [] (.ok ()) store.roles := by
  rw [Store.checkKey, if_pos h]
  exact pure store ()

theorem checkKey_error {store : Store Ram} {key : UInt16} (h : isCallerKey key = false) :
    Performs (Store.checkKey key) store [] (.error (.invalidKey key)) store.roles := by
  rw [Store.checkKey, if_neg (by simp [h])]
  exact throw store (.invalidKey key)

end Performs

/-- After a failure of the device a fenced operation has left no page in use. -/
theorem roles_of_fenced_failure {δ : Type} {x : StoreM δ α} {store store' : Store δ} {e : Error}
    (h : Store.fenced x store = .error e store') (he : e.isDeviceFailure = true) :
    store'.roles = none := by
  unfold Store.fenced at h
  split at h
  next => cases h
  next e' after' hx =>
    cases h
    simp [he]

end Store

end FlashRing
