import FlashRing.Proofs.Operation

/-!
A store with steady power is a bounded map. Main statement: whatever operations are made after
formatting, every answer is the one of the map.
-/

namespace FlashRing

/-- The answers of a map to operations made one after the other. -/
def Contents.replies (capacity : Nat) (contents : Contents) :
    List Operation → List (Except Error Reply)
  | [] => []
  | operation :: rest =>
    contents.reply capacity operation :: replies capacity (contents.next capacity operation) rest

namespace Store

/-- The answers of a store to operations made one after the other. -/
def replies (store : Store Ram) : List Operation → List (Except Error Reply)
  | [] => []
  | operation :: rest => store.answer operation.run :: replies (store.left operation.run) rest

variable {store : Store Ram} {contents : Contents}

theorem Serves.step (h : store.Serves contents) (hp : store.device.power = .steady)
    (operation : Operation) :
    store.answer operation.run = contents.reply store.ring.capacity operation ∧
      (store.left operation.run).Serves (contents.next store.ring.capacity operation) ∧
      (store.left operation.run).ring = store.ring ∧
      (store.left operation.run).device.power = .steady := by
  rcases h.outcome operation with
    ⟨final, hrun, hserves, hring, hpower⟩ | ⟨_, _, _, _, _, _, _, hno, -⟩
  · rw [answer_of_run hrun, left_of_run hrun]
    exact ⟨rfl, hserves, hring, hpower hp⟩
  · exact absurd hp hno

theorem Serves.replies (h : store.Serves contents) (hp : store.device.power = .steady)
    (operations : List Operation) :
    store.replies operations = contents.replies store.ring.capacity operations := by
  -- The ring and its capacity stay the same, so one map answers all along.
  induction operations generalizing store contents with
  | nil => rfl
  | cons operation rest ih =>
    obtain ⟨hanswer, hserves, hring, hpower⟩ := h.step hp operation
    rw [Store.replies, hanswer, ih hserves hpower, hring, Contents.replies]

/-- A formatted store answers every sequence of operations as an empty map does that has room for
as many keys as a page has slots. -/
theorem replies_of_format {device : Ram} {config : Config} {formatted : Store Ram}
    (hp : device.power = .steady) (ha : attach device config = .ok store)
    (hf : format store = .ok () formatted) (operations : List Operation) :
    formatted.replies operations = Contents.empty.replies store.ring.capacity operations := by
  obtain ⟨hserves, hring, hpower⟩ := serves_of_format ha hf
  rw [hserves.replies (hpower hp), hring]

/-- The fourth key finds no room in pages of three slots until one is deleted. -/
theorem replies_of_small :
    (left format small).replies
        [.write 1 10, .write 2 20, .write 3 30, .write 4 40, .delete 2, .write 4 40, .restart,
          .entries] =
      Contents.empty.replies 3
        [.write 1 10, .write 2 20, .write 3 30, .write 4 40, .delete 2, .write 4 40, .restart,
          .entries] :=
  replies_of_format rfl attach_small format_small _

end Store

end FlashRing
