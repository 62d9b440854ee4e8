import FlashRing.Proofs.Atomicity
import FlashRing.Proofs.Service

/-!
Deletes whose power goes. Main statement: after a cut the key has the payload of its newest copy
that was not cleared yet, so an older payload comes back if there is one; no other key changes.
-/

namespace FlashRing.Store

/-- The payloads that the page in use holds under a key, the newest first. -/
def copies (store : Store Ram) (key : UInt16) : List UInt16 :=
  match store.roles with
  | some roles => SlotLog.copies (store.flash roles.active).log key
  | none => []

/-- The store whose power went after so many programs of a delete and came back. -/
def cutDelete (store : Store Ram) (key : UInt16) (count : Nat) : Store Ram :=
  store.afterEvents [.failAfter count, .call (.delete key), .restorePower]

variable {store : Store Ram} {key : UInt16}

theorem Settled.copies {active count : Nat} {used : SlotLog} (hs : store.Settled active count used)
    (hk : isCallerKey key = true) : store.copies key = used.copies key := by
  rw [Store.copies, hs.roles]
  exact hs.copies_log hk

/-- A delete with power for some programs clears as many copies. -/
theorem Settled.retains_cutDelete {active count : Nat} {used : SlotLog}
    (hs : store.Settled active count used) (hk : isCallerKey key = true) (n : Nat) :
    (store.cutDelete key n).Retains
      (Function.update used.contents key (used.copies key)[n]?) := by
  have hin := holds_strikes_log hs.valid.1 key
  obtain ⟨roles, power, hleft⟩ := (hs.delete hk).left_budget n
  have hcut : store.cutDelete key n = (store.after
      ((strikes active key (store.flash active).log.reverse).take n) roles).powered .steady := by
    change (left (do return Reply.existed (← Store.delete key)) (store.powered (.budget n))).powered
      .steady = _
    rw [left_map, hleft]
    rfl
  rw [hcut]
  refine ⟨hs.attached.after _ roles .steady, _, hs.valid_struck key n, ?_,
    SlotLog.contents_struck hk used n⟩
  exact (flash_after_take hs.attached.fits hin n roles).trans (hs.flash_deleting hk n)

/-- What a cut delete leaves. The key keeps its payload or loses it only if the copies allow it. -/
theorem read_of_cutDelete {device : Ram} {config : Config} {attached formatted : Store Ram}
    (hp : device.power = .steady) (ha : attach device config = .ok attached)
    (hf : format attached = .ok () formatted) (hr : Reachable formatted store)
    (hk : isCallerKey key = true) (n : Nat) :
    answer init (store.cutDelete key n) = .ok () ∧
      answer (read key) (left init (store.cutDelete key n)) = .ok (store.copies key)[n]? ∧
      (∀ other, isCallerKey other = true → other ≠ key →
        answer (read other) (left init (store.cutDelete key n)) = answer (read other) store) ∧
      (answer (read key) (left init (store.cutDelete key n)) = answer (read key) store ∨
          answer (read key) (left init (store.cutDelete key n)) = .ok none ↔
        (store.copies key)[n]? = (store.copies key).head? ∨ (store.copies key)[n]? = none) := by
  obtain ⟨hsteady, contents, active, count, used, hs, -⟩ :=
    hr.inService (inService_of_format hp ha hf)
  have hretains := hs.retains_cutDelete hk n
  rcases hretains.outcome_init with ⟨final, hrun, hserves, -⟩ | ⟨_, _, _, _, _, _, _, hno, -⟩
  · have hinit := answer_of_run hrun
    have hleft := left_of_run hrun
    have hshows := hserves.shows.1
    have hbefore : ∀ other, isCallerKey other = true →
        answer (read other) store = .ok (used.contents other) :=
      fun other ho => answer_of_run (hs.read ho).run_nothing
    have hhead : used.contents key = (store.copies key).head? := by
      rw [SlotLog.contents_of_caller hk, SlotLog.newest?_eq_head?, hs.copies hk]
    rw [hleft, hs.copies hk] at *
    have hkey := hshows key hk
    rw [Function.update_self] at hkey
    refine ⟨hinit, hkey, ?_, ?_⟩
    · intro other ho hne
      rw [hshows other ho, Function.update_of_ne hne, hbefore other ho]
    · rw [hkey, hbefore key hk, hhead, Except.ok.injEq, Except.ok.injEq]
  · exact absurd rfl hno

/-- The store that holds two payloads of one key. -/
def rewritten : Store Ram :=
  left (Request.write 5 2).run (left (Request.write 5 1).run (left format small))

/-- The older of two payloads comes back if the power goes between the two programs of a delete. -/
theorem read_of_cutDelete_rewritten :
    answer (read 5) rewritten = .ok (some 2) ∧
      answer (read 5) (left init (rewritten.cutDelete 5 1)) = .ok (some 1) := by
  have hr : Reachable (left format small) rewritten := .request _ (.request _ .start)
  have h := read_of_cutDelete rfl attach_small format_small hr (by decide : isCallerKey 5 = true) 1
  have hcopies : rewritten.copies 5 = [2, 1] := by decide +kernel
  rw [hcopies] at h
  exact ⟨by decide +kernel, h.2.1⟩

end FlashRing.Store
