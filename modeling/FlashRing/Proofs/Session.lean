import FlashRing.Proofs.Operation

/-!
Sessions: what a store answers to one call after the other, and what each call leaves. Main
statements: two sessions whose steps correspond correspond as a whole, and what each step
guarantees holds of every entry.
-/

namespace FlashRing

/-- A request to a store, or a new store in its place that is started. -/
inductive Call where
  | ask (request : Request)
  | restart
deriving DecidableEq

/-- Carries a call out. How a new store takes the place of the old one depends on the device. -/
def Call.run {δ : Type} [Device δ] (reopen : StoreM δ Unit) : Call → StoreM δ Reply
  | .ask request => request.run
  | .restart => do
    reopen
    Store.init
    return .done

namespace Store

variable {δ ε α β ρ : Type}

/-- The answers to calls made one after the other, each with the store that the call leaves. -/
def journal (serve : ρ → StoreM δ α) (store : Store δ) : List ρ → List (Except Error α × Store δ)
  | [] => []
  | call :: rest =>
    (answer (serve call) store, left (serve call) store) ::
      journal serve (left (serve call) store) rest

/-- The calls made one after the other, each with its answer and the store that it leaves. -/
def session (serve : ρ → StoreM δ α) (store : Store δ) (calls : List ρ) :
    List (ρ × Except Error α × Store δ) :=
  calls.zip (journal serve store calls)

/-- The store that calls made one after the other leave. -/
def leftAll (serve : ρ → StoreM δ α) (store : Store δ) (calls : List ρ) : Store δ :=
  calls.foldl (fun store call => left (serve call) store) store

theorem journal_map {serve : ρ → StoreM δ α} {serve' : ρ → StoreM ε β} {Holds : Store δ → Prop}
    {f : Store δ → Store ε} {g : Except Error α → Except Error β}
    (hstep : ∀ store call, Holds store → answer (serve' call) (f store) =
        g (answer (serve call) store) ∧
      left (serve' call) (f store) = f (left (serve call) store) ∧
      Holds (left (serve call) store)) {store : Store δ} (hs : Holds store) (calls : List ρ) :
    journal serve' (f store) calls = (journal serve store calls).map (Prod.map g f) := by
  induction calls generalizing store with
  | nil => rfl
  | cons call rest ih =>
    obtain ⟨hanswer, hleft, hafter⟩ := hstep store call hs
    rw [journal, hanswer, hleft, ih hafter]
    rfl

theorem forall_mem_journal {serve : ρ → StoreM δ α} {Holds : Store δ → Prop}
    {Q : Except Error α × Store δ → Prop}
    (hstep : ∀ store call, Holds store → Holds (left (serve call) store) ∧
      Q (answer (serve call) store, left (serve call) store)) {store : Store δ}
    (hs : Holds store) (calls : List ρ) : ∀ entry ∈ journal serve store calls, Q entry := by
  induction calls generalizing store with
  | nil => simp [journal]
  | cons call rest ih =>
    obtain ⟨hafter, hentry⟩ := hstep store call hs
    intro entry he
    rcases List.mem_cons.mp he with rfl | he
    · exact hentry
    · exact ih hafter entry he

theorem run_of_answer_ok {x : StoreM δ α} {store : Store δ} {a : α}
    (h : answer x store = .ok a) : x store = .ok a (left x store) := by
  unfold answer at h
  split at h
  next hrun =>
    cases h
    rw [left, hrun]
  next => cases h

theorem run_of_answer_error {x : StoreM δ α} {store : Store δ} {e : Error}
    (h : answer x store = .error e) : x store = .error e (left x store) := by
  unfold answer at h
  split at h
  next => cases h
  next hrun =>
    cases h
    rw [left, hrun]

theorem answer_map (x : StoreM δ α) (g : α → β) (store : Store δ) :
    answer (do return g (← x)) store = (answer x store).map g := by
  rw [answer, run_map, answer]
  cases x store <;> rfl

theorem answer_observe (reading : δ → Except Error α) (store : Store δ) :
    answer (observe reading) store = reading store.device := by
  unfold answer observe
  cases reading store.device <;> rfl

theorem left_observe (reading : δ → Except Error α) (store : Store δ) :
    left (observe reading) store = store := by
  unfold left observe
  cases reading store.device <;> rfl

section Anew

variable [Device δ]

/-- A new store on the device takes the place of this one. It has still to be started. -/
def reattach : StoreM δ Unit := fun store =>
  match attach store.device store.config with
  | .ok fresh => .ok () fresh
  | .error e => .error e store

theorem parts_of_attach {device : δ} {config : Config} {store : Store δ}
    (h : attach device config = .ok store) :
    store.device = device ∧ store.config = config ∧ store.roles = none ∧
      PageRing.layout (Device.geometry device) config = .ok store.ring := by
  rw [attach] at h
  cases hr : PageRing.layout (Device.geometry device) config with
  | error e =>
    rw [hr] at h
    cases h
  | ok ring =>
    rw [hr] at h
    cases h
    exact ⟨rfl, rfl, rfl, rfl⟩

theorem Attached.attach_eq {store : Store Ram} (h : store.Attached) :
    attach store.device store.config = .ok { store with roles := none } := by
  have hring : PageRing.layout (Device.geometry store.device) store.config = .ok store.ring := h
  rw [attach, hring]
  rfl

theorem Attached.reattach {store : Store Ram} (h : store.Attached) :
    Store.reattach store = .ok () { store with roles := none } := by
  rw [Store.reattach, h.attach_eq]

end Anew

end Store

end FlashRing
