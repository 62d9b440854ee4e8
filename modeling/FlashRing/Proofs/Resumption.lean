import FlashRing.Proofs.History

/-!
A rotation that is cut and goes on, any number of times, against one that is not cut. Main
statement: both leave the same words and the same erase counts on the device.
-/

namespace FlashRing

namespace Layout

/-- The erases of a page that a rotation has still to make. -/
def pendingErases (i : Nat) : Layout → Nat
  | .settled _ _ _ => 0
  | .rotating active _ _ _ _ => if active = i then 1 else 0
  | .retired _ _ _ => 0

variable {ring : PageRing} {first middle last : Layout} {change : Change}
  {changes before one other : List Change}

theorem Resuming.erases (h : Resuming ring first change last) (i : Nat) :
    (if change = .erase i then 1 else 0) + last.pendingErases i = first.pendingErases i := by
  cases h with
  | retire active count used copied =>
    rw [pendingErases, pendingErases, Nat.add_zero]
    simp only [Change.erase.injEq]
  | _ => simp [pendingErases]

/-- A rotation that goes on erases the page it left once. -/
theorem Path.count_erase (h : Path (Resuming ring) first changes last) (i : Nat) :
    changes.count (.erase i) + last.pendingErases i = first.pendingErases i := by
  induction h with
  | nil => simp
  | @cons before middle last change rest hstep _ ih =>
    have hfirst := hstep.erases i
    rw [List.count_cons]
    simp only [beq_iff_eq]
    omega

/-- However a rotation goes on, it ends with the same pages and the same erases. -/
theorem Path.same_end (hv : middle.Valid ring) {a₁ a₂ c₁ c₂ : Nat} {u₁ u₂ : SlotLog}
    (hone : Path (Resuming ring) middle one (settled a₁ c₁ u₁))
    (hother : Path (Resuming ring) middle other (settled a₂ c₂ u₂)) :
    settled a₁ c₁ u₁ = settled a₂ c₂ u₂ ∧
      ∀ i, one.count (.erase i) = other.count (.erase i) := by
  have hend₁ := (hone.resuming_sound hv).2
  have hend₂ := (hother.resuming_sound hv).2
  refine ⟨hend₁.trans hend₂.symm, fun i => ?_⟩
  have hcount₁ := hone.count_erase i
  have hcount₂ := hother.count_erase i
  rw [pendingErases] at hcount₁ hcount₂
  omega

end Layout

namespace Store

/-- The request makes a rotation: it compacts, or it writes what is not there yet and finds no free
slot in the active page, but room in the next one. -/
def Rotates (store : Store Ram) : Request → Prop
  | .compact => True
  | .write key payload =>
    (∃ roles, store.roles = some roles ∧
      ∀ slot ∈ (store.flash roles.active).log, slot.isFree = false) ∧
      answer (read key) store ≠ .ok (some payload) ∧ answer (write key payload) store = .ok ()
  | _ => False

/-- What a request that rotates ends with if it is cut after so many programs and erases and goes
on later. -/
def resumption (store : Store Ram) (request : Request) : Nat → Store Ram
  | 0 => store
  | 1 => left compact store
  | _ + 2 => left request.run store

end Store

/-- The action changes the power supply or starts the store. -/
def Action.recovers : Action → Bool
  | .call .init => true
  | .call _ => false
  | .restart => true
  | .failAfter _ => true
  | .restorePower => true

theorem Action.advances_of_recovers {action : Action} (h : action.recovers = true) :
    action.Advances Layout.Resuming := by
  cases action with
  | call request =>
    cases request with
    | init => exact Store.Advances.init.map fun _ => Reply.done
    | _ => cases h
  | restart => exact Store.Advances.restart
  | failAfter count => trivial
  | restorePower => trivial

namespace Store

variable {α : Type} {store cut : Store Ram} {first middle reached last : Layout}
  {before made more : List Change}

/-- An operation that is cut late enough has made the first part of its changes. -/
theorem Performs.travels_budget (before : List Change) {R : Layout → Change → Layout → Prop}
    {operation : StoreM Ram α} {out : Except Error α} {roles : Option Roles}
    (hrun : Performs operation store (before ++ more) out roles) (hforget : Forgets operation)
    (hbefore : Layout.Path (Layout.Step store.ring) first before middle)
    (hmore : Layout.Path R middle more last)
    (hr : ∀ a change b, R a change b → Layout.Step store.ring a change b) (hk : Knows last roles)
    {n : Nat} (hn : before.length ≤ n) :
    ∃ reached, Layout.Path R middle (more.take (n - before.length)) reached ∧
      store.Travels (Layout.Step store.ring) first (before ++ more.take (n - before.length))
        (left operation (store.powered (.budget n))) reached := by
  obtain ⟨m, final, power, hleft, hend⟩ := (hrun.at_power (.budget n)).left_eq hforget
  have heq : left operation (store.powered (.budget n)) =
      (store.after ((before ++ more).take m) final).powered power := by
    rw [hleft, powered_after]
    rfl
  rcases hend with ⟨hl, rfl, rfl⟩ | ⟨hm, rfl, -⟩
  · have hall : more.take (n - before.length) = more := by
      have hlasts : (before ++ more).length ≤ n := hl
      rw [List.length_append] at hlasts
      exact List.take_of_length_le (by omega)
    rw [List.take_length] at heq
    rw [hall]
    exact ⟨last, hmore, hbefore.append (hmore.mono hr), by rw [heq]; rfl, by rw [heq]; exact hk⟩
  · obtain ⟨reached, hreached⟩ := hmore.take (n - before.length)
    have htake : (before ++ more).take n = before ++ more.take (n - before.length) := by
      rw [List.take_append, List.take_of_length_le hn]
    have hm : m = n := hm
    rw [hm, htake] at heq
    exact ⟨reached, hreached, hbefore.append (hreached.mono hr), by rw [heq]; rfl,
      by rw [heq]; exact Or.inl rfl⟩

/-- All ways by which a rotation goes on leave the same words and erase counts. -/
theorem At.commitAll_resumed (hat : store.At first)
    (hbefore : Layout.Path (Layout.Step store.ring) first before middle) {a₁ a₂ c₁ c₂ : Nat}
    {u₁ u₂ : SlotLog}
    (hmade : Layout.Path (Layout.Resuming store.ring) middle made (.settled a₁ c₁ u₁))
    (hmore : Layout.Path (Layout.Resuming store.ring) middle more (.settled a₂ c₂ u₂)) :
    (store.ring.commitAll store.device (before ++ made)).words =
        (store.ring.commitAll store.device (before ++ more)).words ∧
      (store.ring.commitAll store.device (before ++ made)).wear =
        (store.ring.commitAll store.device (before ++ more)).wear := by
  obtain ⟨hsame, herases⟩ := Layout.Path.same_end (hbefore.sound hat.valid).2.2 hmade hmore
  obtain ⟨hin₁, hend₁, -⟩ := (hbefore.append (hmade.mono fun _ _ _ => .resume)).sound hat.valid
  obtain ⟨hin₂, hend₂, -⟩ := (hbefore.append (hmore.mono fun _ _ _ => .resume)).sound hat.valid
  refine PageRing.commitAll_eq hat.attached.fits hin₁ hin₂ ?_ fun i => ?_
  · rw [show store.ring.flash store.device = _ from hat.flash, hend₁, hend₂, hsame]
  · rw [List.count_append, List.count_append, herases i]

/-- Wherever a rotation was cut, and however often startup is cut after that, the last startup
leaves what the rotation would have left. -/
theorem Travels.resumed (hat : store.At first)
    (hcut : store.Travels (Layout.Step store.ring) first (before ++ made) cut reached)
    (hbefore : Layout.Path (Layout.Step store.ring) first before middle)
    (hmade : Layout.Path (Layout.Resuming store.ring) middle made reached)
    {active count : Nat} {used : SlotLog}
    (hmore : Layout.Path (Layout.Resuming store.ring) middle more (.settled active count used))
    {recoveries : List Action} (hr : ∀ action ∈ recoveries, action.recovers = true) :
    let resting := cut.afterActions (recoveries ++ [.restorePower])
    answer init resting = .ok () ∧
      (left init resting).device.words =
        (store.ring.commitAll store.device (before ++ more)).words ∧
      (left init resting).device.wear =
        (store.ring.commitAll store.device (before ++ more)).wear := by
  intro resting
  have hring := hcut.ring_eq
  have hat₁ := hcut.at_last hat
  have hadvance : ∀ action ∈ recoveries ++ [Action.restorePower],
      action.Advances Layout.Resuming := by
    intro action ha
    rcases List.mem_append.mp ha with ha | ha
    · exact Action.advances_of_recovers (hr action ha)
    · rw [List.mem_singleton.mp ha]
      trivial
  obtain ⟨further, last, htravel, -⟩ := hat₁.travels (fun _ _ _ _ => .resume) hadvance
  have hat₂ := (htravel.mono fun _ _ _ => .resume).at_last hat₁
  have hpower : resting.device.power = .steady := by
    rw [show resting = _ from List.foldl_append]
    rfl
  obtain ⟨hanswer, rest, a, c, u, -, -, hinit⟩ := hat₂.comeUp (Or.inl rfl) (Or.inl hpower)
  have hring₂ : resting.ring = store.ring := htravel.ring_eq.trans hring
  rw [hring] at htravel
  rw [show (cut.afterActions (recoveries ++ [.restorePower])).ring = store.ring from hring₂]
    at hinit
  -- From `middle` on both ways are ones by which a rotation goes on.
  have hall := htravel.append hinit
  have hwhole := hcut.append (hall.mono fun _ _ _ => .resume)
  rw [show (left init resting).device = _ from hwhole.device_eq, List.append_assoc]
  exact ⟨hanswer, hat.commitAll_resumed hbefore (hmade.append hall.path) hmore⟩

namespace Settled

variable {active count : Nat} {used : SlotLog} {key payload : UInt16}

theorem of_rotates_write (hs : store.Settled active count used)
    (hrot : store.Rotates (.write key payload)) :
    isCallerKey key = true ∧ used.contents key ≠ some payload ∧
      used.length = store.ring.capacity ∧
      (SlotLog.survivors (used ++ [⟨key, payload⟩])).length ≤ store.ring.capacity := by
  obtain ⟨⟨roles, hroles, hnone⟩, hread, hwrite⟩ := hrot
  obtain rfl : roles = ⟨active, none⟩ := Option.some.inj (hroles.symm.trans hs.roles)
  have hother : used.contents key ≠ some payload := by
    intro hsame
    apply hread
    rw [answer_of_run (hs.read (hs.isCallerKey_of_write hwrite)).run_nothing, hsame]
  have hfull := hs.length_of_full hnone
  exact ⟨hs.isCallerKey_of_write hwrite, hother, hfull, hs.room_of_write hwrite hother hfull⟩

/-- Nothing has happened to a rotation that is cut before its first change. -/
theorem resumed_nothing (hs : store.Settled active count used) {operation : StoreM Ram α}
    {changes : List Change} {out : Except Error α} {roles : Option Roles}
    (hrun : Performs operation store changes out roles) (hforget : Forgets operation)
    (hpath : Layout.Path (Layout.Step store.ring) (.settled active count used) changes last)
    (hk : Knows last roles) {recoveries : List Action}
    (hr : ∀ action ∈ recoveries, action.recovers = true) :
    let resting := (left operation (store.powered (.budget 0))).afterActions
      (recoveries ++ [.restorePower])
    answer init resting = .ok () ∧ (left init resting).device.words = store.device.words ∧
      (left init resting).device.wear = store.device.wear := by
  obtain ⟨reached, hnone, htravel⟩ := Performs.travels_budget [] hrun hforget
    (.nil _) hpath (fun _ _ _ => id) hk (Nat.le_refl 0)
  cases hnone
  have hstill : Layout.Path (Layout.Resuming store.ring) (.settled active count used) []
      (.settled active count used) := .nil _
  exact htravel.resumed hs.at (.nil _) hstill hstill hr

/-- A rotation that has only marked its target ends as a compaction. -/
theorem resumed_marked (hs : store.Settled active count used)
    (hp : store.device.power = .steady) {made : List Change} {final : Store Ram}
    {reached : Layout} {recoveries : List Action}
    (hr : ∀ action ∈ recoveries, action.recovers = true)
    (hcut : store.Travels (Layout.Step store.ring) (.settled active count used)
      (.header (store.ring.next active) Status.receiving.programWord :: made) final reached)
    (hmade : Layout.Path (Layout.Resuming store.ring) (.rotating active count used [] false) made
      reached) :
    let resting := final.afterActions (recoveries ++ [.restorePower])
    answer init resting = .ok () ∧
      (left init resting).device.words = (left Store.compact store).device.words ∧
      (left init resting).device.wear = (left Store.compact store).device.wear := by
  have hmore := Layout.path_marked store.ring active count used
  rw [left_of_run (hs.compact.of_steady hp)]
  have hstart : Layout.Path (Layout.Step store.ring) (.settled active count used)
      [.header (store.ring.next active) Status.receiving.programWord]
      (.rotating active count used [] false) := .cons (.start ..) (.nil _)
  exact hcut.resumed hs.at hstart hmade hmore hr

theorem resumed_compact (hs : store.Settled active count used)
    (hp : store.device.power = .steady) {n : Nat} {recoveries : List Action}
    (hr : ∀ action ∈ recoveries, action.recovers = true) (hn : 1 ≤ n) :
    let resting := (left (Request.run .compact) (store.powered (.budget n))).afterActions
      (recoveries ++ [.restorePower])
    answer init resting = .ok () ∧
      (left init resting).device.words = (left Store.compact store).device.words ∧
      (left init resting).device.wear = (left Store.compact store).device.wear := by
  have hmore := Layout.path_marked store.ring active count used
  obtain ⟨reached, hmade, hcut⟩ := Performs.travels_budget [_]
    (hs.compact.map fun _ => Reply.done) (Forgets.request .compact)
    (.cons (.start active count used) (.nil _)) hmore (fun _ _ _ => .resume)
    (Or.inr ⟨_, _, _, rfl, rfl⟩) hn
  exact hs.resumed_marked hp hr hcut hmade

theorem resumed_write (hs : store.Settled active count used)
    (hp : store.device.power = .steady) (hrot : store.Rotates (.write key payload)) {n : Nat}
    {recoveries : List Action} (hr : ∀ action ∈ recoveries, action.recovers = true)
    (hn : 1 ≤ n) :
    let resting := (left (Request.run (.write key payload)) (store.powered (.budget n))).afterActions
      (recoveries ++ [.restorePower])
    answer init resting = .ok () ∧
      (left init resting).device.words =
        (store.resumption (.write key payload) n).device.words ∧
      (left init resting).device.wear =
        (store.resumption (.write key payload) n).device.wear := by
  obtain ⟨hk, hother, hfull, hl⟩ := hs.of_rotates_write hrot
  have hlive : (Slot.mk key payload).isLive = true := hk
  have hrun := (hs.write_rotated hk hother hfull hl).map fun _ => Reply.done
  have hforget := Forgets.request (.write key payload)
  have hlast : Knows (.settled (store.ring.next active)
      (Layout.nextCount store.ring active count)
      (SlotLog.survivors (used ++ [⟨key, payload⟩])))
      (some ⟨store.ring.next active, none⟩) := Or.inr ⟨_, _, _, rfl, rfl⟩
  obtain ⟨rest, hrest, hmore⟩ := Layout.path_carried store.ring active count used hlive
  have hstart : Layout.Step store.ring (.settled active count used)
      (.header (store.ring.next active) Status.receiving.programWord)
      (.rotating active count used [] false) := .start ..
  have hcarry : Layout.Step store.ring (.rotating active count used [] false)
      (.slot (store.ring.next active) 0 (Slot.mk key payload).encode)
      (.rotating active count used [⟨key, payload⟩] false) := .carry active count used _ hlive hl
  rw [hrest] at hrun hlast
  rcases Nat.eq_or_lt_of_le hn with rfl | hn
  · obtain ⟨reached, hmade, hcut⟩ := Performs.travels_budget [_] hrun hforget
      (.cons hstart (.nil _)) (.cons hcarry (hmore.mono fun _ _ _ => .resume))
      (fun _ _ _ => id) hlast (Nat.le_refl 1)
    cases hmade
    exact hs.resumed_marked hp hr hcut (.nil _)
  · obtain ⟨reached, hmade, hcut⟩ := Performs.travels_budget [_, _] hrun hforget
      (.cons hstart (.cons hcarry (.nil _))) hmore (fun _ _ _ => .resume) hlast hn
    have hall : left (Request.run (.write key payload)) store = _ :=
      left_of_run (hrun.of_steady hp)
    obtain ⟨n, rfl⟩ := Nat.exists_eq_add_of_le' hn
    rw [resumption, hall]
    exact hcut.resumed hs.at (.cons hstart (.cons hcarry (.nil _))) hmade hmore hr

end Settled

/-- Wherever a rotation is cut, and however often the startups after it are cut, the flash ends up
word for word as if nothing had been cut. -/
theorem resumed_of_format {device : Ram} {config : Config} {formatted before : Store Ram}
    {request : Request} {n : Nat} {recoveries : List Action} (hp : device.power = .steady)
    (ha : attach device config = .ok store) (hf : format store = .ok () formatted)
    (hreach : Reachable formatted before) (hrot : before.Rotates request)
    (hr : ∀ action ∈ recoveries, action.recovers = true) :
    let resting := before.afterActions
      (.failAfter n :: .call request :: recoveries ++ [.restorePower])
    answer init resting = .ok () ∧
      (left init resting).device.words = (before.resumption request n).device.words ∧
      (left init resting).device.wear = (before.resumption request n).device.wear := by
  obtain ⟨hsteady, contents, active, count, used, hs, -⟩ :=
    hreach.inService (inService_of_format hp ha hf)
  cases request with
  | compact =>
    rcases n with _ | n
    · exact hs.resumed_nothing (hs.compact.map fun _ => Reply.done) (Forgets.request .compact)
        (Layout.path_rotation ..) (Or.inr ⟨_, _, _, rfl, rfl⟩) hr
    · have hsame : before.resumption .compact (n + 1) = left Store.compact before := by
        cases n with
        | zero => rfl
        | succ n => exact left_map Store.compact (fun _ => Reply.done) before
      rw [hsame]
      exact hs.resumed_compact hsteady hr (by omega)
  | write key payload =>
    rcases n with _ | n
    · obtain ⟨hk, hother, hfull, hl⟩ := hs.of_rotates_write hrot
      exact hs.resumed_nothing ((hs.write_rotated hk hother hfull hl).map fun _ => Reply.done)
        (Forgets.request (.write key payload)) (Layout.path_carrying active count hk hl)
        (Or.inr ⟨_, _, _, rfl, rfl⟩) hr
    · exact hs.resumed_write hsteady hrot hr (by omega)
  | _ => exact absurd hrot id

/-- A write that rotates is cut after three changes, and so are two startups after it. -/
theorem resumed_of_small :
    let before := (left format small).afterActions
      [.call (.write 1 10), .call (.write 1 11), .call (.write 2 20)]
    let resting := before.afterActions (.failAfter 3 :: .call (.write 1 12) ::
      [.restorePower, .failAfter 1, .call .init, .restorePower, .failAfter 2, .restart] ++
        [.restorePower])
    answer init resting = .ok () ∧
      (left init resting).device.words =
        (left (Request.run (.write 1 12)) before).device.words ∧
      (left init resting).device.wear = (left (Request.run (.write 1 12)) before).device.wear :=
  resumed_of_format rfl attach_small format_small
    (.request (.write 2 20) (.request (.write 1 11) (.request (.write 1 10) .start)))
    ⟨⟨⟨0, none⟩, by decide +kernel, by decide +kernel⟩, by decide +kernel, by decide +kernel⟩
    (by decide)

end Store

end FlashRing
