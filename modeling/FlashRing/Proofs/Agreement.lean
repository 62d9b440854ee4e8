import FlashRing.Proofs.Counterpart
import FlashRing.Proofs.Session

/-!
Operations on a device and on its counterpart, one after the other from the smallest on. Main
statement: every request agrees, so that whole sessions on both answer alike.
-/

namespace FlashRing.Counterpart

open Store

variable {ε : Type} [Device ε] {c : Counterpart ε} {page source target : Page}

/-- The operations end alike, whatever they return. -/
abbrev Matches (c : Counterpart ε) {α : Type} (x : StoreM Ram α) (y : StoreM ε α) : Prop :=
  c.Agrees (fun _ => True) x y

namespace Agrees

/-- A failure for a reason that both see, and otherwise the rest. -/
theorem refuse {α : Type} {Q : α → Prop} {p : Prop} [Decidable p] {e : Error} {x : StoreM Ram α}
    {y : StoreM ε α} (he : e.isDeviceFailure = false) (h : c.Agrees Q x y) :
    c.Agrees Q (if p then (MonadExcept.throw e : StoreM Ram PUnit) >>= fun _ => x else x)
      (if p then (MonadExcept.throw e : StoreM ε PUnit) >>= fun _ => y else y) :=
  ite (fun _ => bind (throw (Q := fun _ => True) he) fun _ _ => h) fun _ => h

theorem header (h : page ∈ c.ring.pages) :
    c.Matches (Store.observe page.header) (Store.observe page.header) :=
  observe (fun hshow => hshow.header h) fun _ => trivial

theorem log (h : page ∈ c.ring.pages) :
    c.Matches (Store.observe page.log) (Store.observe page.log) :=
  observe (fun hshow => hshow.log h) fun _ => trivial

theorem clean (h : page ∈ c.ring.pages) : c.Matches (Store.clean page) (Store.clean page) := by
  refine bind (Q := fun _ => True) (observe (fun hshow => hshow.isErased h) fun _ => trivial)
    fun erased _ => ?_
  cases erased with
  | true => exact pure trivial
  | false => exact erase h

theorem append (h : page ∈ c.ring.pages) (slot : Slot) :
    c.Matches (Store.append page slot) (Store.append page slot) := by
  have hplace : c.Agrees (fun place => ∀ address, place = some address → c.ring.Owns address)
      (Store.observe page.firstFree?) (Store.observe page.firstFree?) := by
    refine observe (fun hshow => hshow.firstFree? h) fun words address hfind => ?_
    exact PageRing.owns_slot h (List.mem_of_find?_eq_some hfind)
  refine bind hplace fun place hin => ?_
  cases place with
  | none => exact pure trivial
  | some address => exact bind (program (hin address rfl) _) fun _ _ => pure trivial

theorem appendOrFail (h : page ∈ c.ring.pages) (slot : Slot) :
    c.Matches (Store.appendOrFail page slot) (Store.appendOrFail page slot) := by
  refine bind (append h slot) fun done _ => ?_
  cases done with
  | true => exact pure trivial
  | false => exact throw rfl

theorem copy (h : page ∈ c.ring.pages) (slot : Slot) :
    c.Matches (Store.copy page slot) (Store.copy page slot) := by
  refine ite (fun _ => ?_) fun _ => pure trivial
  refine bind (Q := fun _ => True)
    (observe (fun hshow => hshow.holds h slot.key) fun _ => trivial) fun found _ => ?_
  cases found with
  | true => exact pure trivial
  | false => exact appendOrFail h slot

theorem transfer (hs : source ∈ c.ring.pages) {t : Nat} (ht : t < c.ring.count)
    (carried : Option Slot) (log : SlotLog) :
    c.Matches (Store.transfer source (c.ring.page t) carried log)
      (Store.transfer source (c.ring.page t) carried log) := by
  have htarget := PageRing.page_mem_pages ht
  have hheader := PageRing.owns_header htarget
  refine bind (program hheader _) fun _ _ =>
    bind (forM fun slot _ => appendOrFail htarget slot) fun _ _ =>
    bind (forM fun slot _ => copy htarget slot) fun _ _ =>
    bind (Agrees.header hs) fun header _ =>
    bind (program hheader _) fun _ _ => bind (erase hs) fun _ _ =>
    bind (program hheader _) fun _ _ => setRoles ?_
  rintro roles ⟨⟩
  exact ⟨ht, fun _ h => by cases h⟩

theorem rotate (carried : Option Slot) :
    c.Matches (Store.rotate carried) (Store.rotate carried) := by
  refine bind readyRoles fun roles hin => get_bind fun store hs => ?_
  simp only [ring_over, hs.ring]
  -- The target is the page that already receives, or the next one of the ring.
  have ht : roles.receiving.getD (c.ring.next roles.active) < c.ring.count := by
    cases hr : roles.receiving with
    | none => exact c.ring.next_lt _
    | some index => exact hin.receiving index hr
  have hsource := PageRing.page_mem_pages hin.active
  refine bind (log hsource) fun log _ => refuse rfl ?_
  have htransfer := transfer (c := c) hsource ht carried log
  refine ite (fun _ => ?_) fun _ => htransfer
  refine bind (clean (PageRing.page_mem_pages ht)) fun _ _ => bind (setRoles ?_) fun _ _ =>
    htransfer
  rintro some ⟨⟩
  exact ⟨hin.active, fun _ h => by cases h; exact ht⟩

theorem compact : c.Matches Store.compact Store.compact :=
  fenced (rotate none)

theorem read (key : UInt16) : c.Matches (Store.read key) (Store.read key) :=
  fenced (bind activePage fun _ hp => bind (checkKey key) fun _ _ => bind (log hp) fun _ _ =>
    pure trivial)

theorem write (key payload : UInt16) :
    c.Matches (Store.write key payload) (Store.write key payload) := by
  refine fenced (bind activePage fun page hp => bind (checkKey key) fun _ _ =>
    bind (log hp) fun log _ => ite (fun _ => pure trivial) fun _ => ?_)
  refine bind (append hp _) fun done _ => ?_
  cases done with
  | true => exact pure trivial
  | false => exact rotate _

theorem delete (key : UInt16) : c.Matches (Store.delete key) (Store.delete key) := by
  refine fenced (bind activePage fun page hp => bind (checkKey key) fun _ _ =>
    bind (log hp) fun log _ => bind (forM fun place hm => ?_) fun _ _ => pure trivial)
  -- What is struck out are slots found in the log, so that their addresses are slots of the page.
  have hzip := List.mem_reverse.mp (List.mem_filter.mp hm).1
  exact program (PageRing.owns_slot hp (List.of_mem_zip hzip).1) _

theorem entries : c.Matches Store.entries Store.entries :=
  fenced (bind activePage fun _ hp => bind (log hp) fun _ _ => pure trivial)

theorem eraseCounter : c.Matches Store.eraseCounter Store.eraseCounter :=
  fenced (bind activePage fun _ hp => bind (header hp) fun _ _ => pure trivial)

theorem inspect : c.Matches Store.inspect Store.inspect := by
  refine fenced (get_bind fun store hs => ?_)
  simp only [ring_over, hs.ring]
  exact observe (fun hshow => hshow.reports) fun _ => trivial

theorem sweep {page : Page} (h : page ∈ c.ring.pages) (status : Status) :
    c.Matches (Store.sweep (page, status)) (Store.sweep (page, status)) := by
  cases status with
  | erased => exact clean h
  | unknown byte => exact erase h
  | active => exact pure trivial
  | receiving => exact pure trivial

/-- Every position has a page. -/
def InRing (c : Counterpart ε) (place : Option Nat) : Prop :=
  ∀ index, place = some index → index < c.ring.count

theorem resolve {active receiving : Option Nat} (ha : InRing c active) (hr : InRing c receiving) :
    c.Matches (Store.resolve active receiving) (Store.resolve active receiving) := by
  match active, receiving with
  | none, none => exact throw rfl
  | some a, none =>
    apply setRoles
    rintro roles ⟨⟩
    exact ⟨ha a rfl, fun _ h => by cases h⟩
  | none, some t =>
    refine get_bind fun store hs => ?_
    simp only [ring_over, hs.ring]
    refine bind (program (PageRing.owns_header (PageRing.page_mem_pages (hr t rfl))) _)
      fun _ _ => setRoles ?_
    rintro roles ⟨⟩
    exact ⟨hr t rfl, fun _ h => by cases h⟩
  | some a, some t =>
    refine bind (setRoles ?_) fun _ _ => rotate none
    rintro roles ⟨⟩
    exact ⟨ha a rfl, fun index h => by cases h; exact hr t rfl⟩

theorem inRing_positions {statuses : List Status} (hl : statuses.length = c.ring.count)
    (status : Status) : InRing c (positions statuses status).head? := by
  intro index h
  have hm : index ∈ positions statuses status := List.mem_of_head? h
  obtain ⟨⟨found, place⟩, hz, he⟩ := List.mem_filterMap.mp hm
  dsimp only at he
  split at he
  next =>
    cases he
    rw [← hl]
    exact (List.mem_zipIdx' hz).1
  next => cases he

theorem scan : c.Matches Store.scan Store.scan := by
  refine bind (setRoles fun _ h => by cases h) fun _ _ => get_bind fun store hs => ?_
  simp only [ring_over, hs.ring]
  refine bind (Q := fun statuses => statuses.length = c.ring.count)
    (observe (fun hshow => hshow.statuses) fun _ => by simp [PageRing.pages])
    fun statuses hl => refuse rfl (refuse rfl ?_)
  refine bind (forM fun place hm => sweep (List.of_mem_zip hm).1 place.2) fun _ _ => ?_
  exact resolve (inRing_positions hl .active) (inRing_positions hl .receiving)

theorem init : c.Matches Store.init Store.init :=
  fenced scan

theorem format : c.Matches Store.format Store.format := by
  refine fenced (bind (setRoles fun _ h => by cases h) fun _ _ => get_bind fun store hs => ?_)
  simp only [ring_over, hs.ring]
  have hcount : 0 < c.ring.count := Nat.lt_of_lt_of_le (by decide) c.ring.two_le_count
  have hheader := PageRing.owns_header (PageRing.page_mem_pages hcount)
  refine bind (forM fun page hp => clean (List.mem_reverse.mp hp)) fun _ _ =>
    bind (program hheader _) fun _ _ => bind (program hheader _) fun _ _ => setRoles ?_
  rintro roles ⟨⟩
  exact ⟨hcount, fun _ h => by cases h⟩

theorem reattach : c.Matches Store.reattach Store.reattach := by
  intro store hs
  have hover : attach (c.of store.device) store.config =
      .ok (Store.over c.of { store with roles := none }) := by
    rw [attach_over (c.geometry hs.fine), hs.attached.attach_eq]
    rfl
  refine .inl ⟨(), { store with roles := none }, hs.attached.reattach, ?_,
    ⟨hs.config, hs.ring, hs.fine, hs.attached, fun _ h => by cases h⟩, trivial⟩
  rw [Store.reattach, device_over, config_over, hover]

theorem paired : Store.Paired (c.Matches) where
  pure _ := pure trivial
  throw he := throw he
  bind hx hf := bind hx fun a _ => hf a
  readyRoles := readyRoles.mono fun _ _ => trivial
  read := read
  write := write
  delete := delete

theorem request (request : Request) : c.Matches request.run request.run :=
  paired.request (fun _ => init) compact eraseCounter entries inspect fun _ => format

theorem call {reopen : StoreM Ram Unit} {reopen' : StoreM ε Unit} (h : c.Matches reopen reopen')
    (call : Call) : c.Matches (call.run reopen) (call.run reopen') := by
  cases call with
  | ask request => exact .request request
  | restart => exact bind h fun _ _ => bind init fun _ _ => pure trivial

theorem run_ok {α : Type} {Q : α → Prop} {x : StoreM Ram α} {y : StoreM ε α}
    {store final : Store Ram} {a : α} (h : c.Agrees Q x y) (hs : c.Hosts store)
    (hx : x store = .ok a final) : y (store.over c.of) = .ok a (final.over c.of) := by
  rcases h store hs with ⟨b, after, hrun, hover, -⟩ | ⟨e, after, hrun, -⟩
  · rw [hx] at hrun
    cases hrun
    exact hover
  · rw [hx] at hrun
    cases hrun

theorem ends {α : Type} {Q : α → Prop} {x : StoreM Ram α} {y : StoreM ε α} {store : Store Ram}
    (h : c.Agrees Q x y) (hs : c.Hosts store) :
    answer y (store.over c.of) = answer x store ∧
      left y (store.over c.of) = (left x store).over c.of ∧ c.Hosts (left x store) ∧
      isCut (answer x store) = false := by
  unfold answer left
  rcases h store hs with ⟨a, after, hrun, hover, hm, -⟩ | ⟨e, after, hrun, hover, hm, he⟩
  · rw [hrun, hover]
    exact ⟨rfl, rfl, hm, rfl⟩
  · rw [hrun, hover]
    exact ⟨rfl, rfl, hm, he⟩

end Agrees

/-- A store on the memory that was attached to a state with a counterpart has one itself. -/
theorem hosts_of_attach {device : Ram} {store : Store Ram}
    (h : attach device c.config = .ok store) (hr : store.ring = c.ring) (hf : c.Fine device) :
    c.Hosts store := by
  obtain ⟨rfl, hconfig, hnone, -⟩ := parts_of_attach h
  refine ⟨hconfig, hr, hf, (eq_of_attach h).1, fun roles hroles => ?_⟩
  rw [hnone] at hroles
  cases hroles

/-- Sessions on both agree call by call, and no call fails on account of the device. -/
theorem journal_over {α ρ : Type} {serve : ρ → StoreM Ram α} {serve' : ρ → StoreM ε α}
    (h : ∀ call, c.Matches (serve call) (serve' call)) {store : Store Ram} (hs : c.Hosts store)
    (calls : List ρ) :
    journal serve' (store.over c.of) calls =
        (journal serve store calls).map (Prod.map id (·.over c.of)) ∧
      ∀ entry ∈ journal serve store calls, c.Hosts entry.2 ∧ isCut entry.1 = false := by
  refine ⟨journal_map (fun store call hs => ?_) hs calls,
    forall_mem_journal (fun store call hs => ?_) hs calls⟩
  · obtain ⟨hanswer, hleft, hhosts, -⟩ := (h call).ends hs
    exact ⟨hanswer, hleft, hhosts⟩
  · obtain ⟨-, -, hhosts, hcut⟩ := (h call).ends hs
    exact ⟨hhosts, hhosts, hcut⟩

end FlashRing.Counterpart
