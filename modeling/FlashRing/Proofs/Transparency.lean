import FlashRing.Proofs.History
import FlashRing.Proofs.Interchange

/-!
Startups and restarts between the calls to a store that is ready. Main statement: they change
nothing, neither of what the calls answer nor of what they leave.
-/

namespace FlashRing

/-- Only what the store knows of the flash is found out again. -/
def Call.isPause : Call → Bool
  | .ask .init => true
  | .ask _ => false
  | .restart => true

namespace Store

section Pauses

variable {δ : Type} [Device δ] {reopen : StoreM δ Unit} {store : Store δ}

/-- The pauses among calls leave no trace. -/
structure Undisturbed (reopen : StoreM δ Unit) (store : Store δ) (calls : List Call) : Prop where
  /-- The other calls answer and leave what they do without the pauses. -/
  session : (session (Call.run reopen) store calls).filter (!·.1.isPause) =
    Store.session (Call.run reopen) store (calls.filter (!·.isPause))
  /-- A pause succeeds and leaves the store exactly as it was. -/
  pause : ∀ before pause behind, calls = before ++ pause :: behind → pause.isPause = true →
    pause.run reopen (leftAll (Call.run reopen) store before) =
      .ok .done (leftAll (Call.run reopen) store before)

theorem Undisturbed.cons_pause {call : Call} {rest : List Call} (hp : call.isPause = true)
    (hrun : call.run reopen store = .ok .done store) (h : Undisturbed reopen store rest) :
    Undisturbed reopen store (call :: rest) := by
  have hleft : left (call.run reopen) store = store := by rw [left, hrun]
  refine ⟨?_, fun before pause behind hcalls hpp => ?_⟩
  · rw [List.filter_cons_of_neg (by simp [hp]), ← h.session]
    unfold Store.session
    rw [journal, hleft, List.zip_cons_cons, List.filter_cons_of_neg (by simp [hp])]
  · cases before with
    | nil =>
      cases hcalls
      exact hrun
    | cons first before =>
      obtain ⟨rfl, hrest⟩ := List.cons.inj hcalls
      have hafter := h.pause before pause behind hrest hpp
      rw [← hleft] at hafter
      exact hafter

theorem Undisturbed.cons_other {call : Call} {rest : List Call} (hp : call.isPause = false)
    (h : Undisturbed reopen (left (call.run reopen) store) rest) :
    Undisturbed reopen store (call :: rest) := by
  refine ⟨?_, fun before pause behind hcalls hpp => ?_⟩
  · have hsession := h.session
    rw [List.filter_cons_of_pos (by simp [hp])]
    unfold Store.session at hsession ⊢
    rw [journal, journal, List.zip_cons_cons, List.zip_cons_cons,
      List.filter_cons_of_pos (by simp [hp]), hsession]
  · cases before with
    | nil =>
      cases hcalls
      rw [hp] at hpp
      cases hpp
    | cons first before =>
      obtain ⟨rfl, hrest⟩ := List.cons.inj hcalls
      exact h.pause before pause behind hrest hpp

/-- It is enough that a pause changes nothing in the states that calls lead to. -/
theorem undisturbed_of_keeps {Holds : Store δ → Prop}
    (hpause : ∀ store (call : Call), Holds store → call.isPause = true →
      call.run reopen store = .ok .done store)
    (hkeep : ∀ store (call : Call), Holds store → call.isPause = false →
      isCut (answer (call.run reopen) store) = false → Holds (left (call.run reopen) store))
    (hs : Holds store) {calls : List Call}
    (hcut : ∀ entry ∈ journal (Call.run reopen) store (calls.filter (!·.isPause)),
      isCut entry.1 = false) : Undisturbed reopen store calls := by
  -- A pause leaves the store itself behind, and any other call one of the same kind.
  induction calls generalizing store with
  | nil => exact ⟨rfl, fun before pause behind h => by simp at h⟩
  | cons call rest ih =>
    cases hp : call.isPause with
    | true =>
      rw [List.filter_cons_of_neg (by simp [hp])] at hcut
      exact (ih hs hcut).cons_pause hp (hpause store call hs hp)
    | false =>
      rw [List.filter_cons_of_pos (by simp [hp]), journal] at hcut
      have hnot := hcut _ (List.mem_cons_self ..)
      have hafter := hkeep store call hs hp hnot
      exact (ih hafter fun entry he => hcut entry (List.mem_cons_of_mem _ he)).cons_other hp

end Pauses

section Memory

variable {store : Store Ram}

/-- A startup finds a settled layout as the store knows it. -/
theorem Settled.start {active count : Nat} {used : SlotLog} (hs : store.Settled active count used)
    {start : StoreM Ram Unit} (h : start = Store.init ∨ start = Store.restart) :
    start store = .ok () store := by
  obtain ⟨changes, place, number, log, hresolved, hrun, hpath⟩ := hs.at.starts h
  cases hresolved
  rw [← hs.roles] at hrun
  cases hpath with
  | nil => exact hrun.run_nothing
  | cons hstep _ => cases hstep

/-- The store knows the one page in use. -/
def IsServing (store : Store Ram) : Prop :=
  ∃ contents, store.Serves contents

/-- A new store finds what the old one knew. -/
theorem Settled.init_anew {active count : Nat} {used : SlotLog}
    (hs : store.Settled active count used) :
    Store.init { store with roles := none } = .ok () store := by
  rw [← hs.attached.restart]
  exact hs.start (.inr rfl)

theorem IsServing.pause (h : store.IsServing) {call : Call} (hp : call.isPause = true) :
    call.run reattach store = .ok .done store := by
  obtain ⟨contents, active, count, used, hs, -⟩ := h
  cases call with
  | ask request =>
    cases request with
    | init => exact run_bind (hs.start (.inl rfl)) _
    | _ => cases hp
  | restart => exact (run_bind hs.attached.reattach _).trans (run_bind hs.init_anew _)

/-- Unless the device fails, a request leaves the store ready. -/
theorem IsServing.request (h : store.IsServing) {request : Request}
    (hcut : isCut (answer request.run store) = false) : (left request.run store).IsServing := by
  obtain ⟨contents, active, count, used, hs, -⟩ := h
  by_cases hr : request = .format
  · subst hr
    have hformat : Outcome Store.format store (.ok ()) (fun _ => True) Contents.empty :=
      hs.attached.leads_format.outcome hs.attached
    have hout : Outcome Request.format.run store (.ok .done) (fun _ => True) Contents.empty :=
      hformat.map fun _ => Reply.done
    rcases hout with ⟨final, hrun, hserves, -⟩ | ⟨fault, cut, hrun, -⟩
    · rw [left_of_run hrun]
      exact ⟨_, hserves⟩
    · rw [answer, hrun] at hcut
      cases hcut
  · obtain ⟨changes, last, htravel, -, hready⟩ :=
      Advances.travels (.request fun he => hr he) (.request request) (fun _ _ _ => id) hs.at
    have hroles : store.roles ≠ none := by
      rw [hs.roles]
      exact Option.some_ne_none _
    obtain ⟨place, number, log, -, hsettled⟩ :=
      (htravel.at_last hs.at).settled (hready hcut hroles)
    exact ⟨_, place, number, log, hsettled, rfl⟩

theorem IsServing.undisturbed (h : store.IsServing) {calls : List Call}
    (hcut : ∀ entry ∈ journal (Call.run reattach) store (calls.filter (!·.isPause)),
      isCut entry.1 = false) : Undisturbed reattach store calls := by
  refine undisturbed_of_keeps (fun _ _ hs hp => hs.pause hp) (fun store call hs hp hnot => ?_) h hcut
  cases call with
  | ask request => exact hs.request hnot
  | restart => cases hp

end Memory

end Store

end FlashRing
