import Packrat.Eval

/-!
# `Packrat.Proofs.Runs` — what the steps of the evaluator do to its state

## Contents
- **Composition.** A computation in two parts runs the second from the state that the first leaves.
- **Actions and hooks.** They change the store only.
- **Trails.** Noting a failure keeps the memo; looking a result up, keeping it, and finding it again.
-/

namespace Packrat

variable {α β γ σ : Type}

/-! ## Composition -/

section Runs

variable {S : Type} {x : ExceptT Fault (StateM S) β} {k : β → ExceptT Fault (StateM S) γ} {s s' : S} {b : β}
  {e : Fault}

theorem run_bind_ok (h : x.run.run s = (.ok b, s')) :
    (x >>= k).run.run s = (k b).run.run s' := by
  show (ExceptT.bind x k).run.run s = _
  simp only [ExceptT.bind, ExceptT.run, ExceptT.mk, StateT.run, bind, StateT.bind] at h ⊢
  rw [h]
  rfl

theorem run_bind_error (h : x.run.run s = (.error e, s')) :
    (x >>= k).run.run s = (.error e, s') := by
  show (ExceptT.bind x k).run.run s = _
  simp only [ExceptT.bind, ExceptT.run, ExceptT.mk, StateT.run, bind, StateT.bind] at h ⊢
  rw [h]
  rfl

end Runs

/-! ## Actions and hooks -/

/-- An action runs on the store, and the rest stays. -/
theorem run_onStore (m : ActionM σ β) (p : Progress σ) :
    (onStore m).run.run p = ((m.run.run p.store).1, { p with store := (m.run.run p.store).2 }) := rfl

/-- A hook runs on the state of the host program, and the rest stays. -/
theorem run_onUser (m : HookM σ β) (p : Progress σ) :
    (onUser m).run.run p = ((m.run.run p.store.user).1,
      { p with store := { p.store with user := (m.run.run p.store.user).2 } }) := rfl

/-! ## Trails -/

@[simp] theorem Trail.memo_note (t : Trail) (offset : Nat) (label : Bytes) :
    (t.note offset label).memo = t.memo := by
  unfold Trail.note
  split
  · rfl
  · split
    · rfl
    · rfl

theorem run_kept? (scene : Scene α σ) (index offset : Nat) (p : Progress σ) :
    (kept? scene index offset).run.run p =
      (.ok (if scene.settings.memoize then p.trail.memo[(index, offset)]? else none), p) := by
  unfold kept?
  cases scene.settings.memoize with
  | true => rfl
  | false => rfl

theorem run_keep (scene : Scene α σ) (quiet : Bool) (index offset : Nat) (r : Result) (p : Progress σ) :
    (keep scene quiet index offset r >>= fun _ => Pure.pure r).run.run p =
      (.ok r, if scene.settings.memoize && !quiet then
        { p with trail := { p.trail with memo := p.trail.memo.insertIfNew (index, offset) r } } else p) := by
  unfold keep
  split
  · rfl
  · rfl

/-- A result is found once one has been kept. -/
theorem Memo.insertIfNew_self (memo : Memo) (key : Nat × Nat) (r : Result) :
    (memo.insertIfNew key r)[key]? ≠ none := by
  rw [Std.HashMap.getElem?_insertIfNew]
  by_cases hmem : key ∈ memo
  · simp [hmem]
  · simp [hmem]

/-- What has been found is found after another result has been kept. -/
theorem Memo.insertIfNew_grown {memo : Memo} {key visit : Nat × Nat} {r : Result}
    (h : memo[visit]? ≠ none) : (memo.insertIfNew key r)[visit]? ≠ none := by
  rw [Std.HashMap.getElem?_insertIfNew]
  split
  · simp
  · exact h

/-- What is found after a result has been kept is that result or was there before: on one input, the offset
determines the cursor. -/
theorem Memo.of_insertIfNew {memo : Memo} {index index' : Nat} {c c' : Cursor} {r r' : Result}
    (hinput : c.input = c'.input)
    (h : (memo.insertIfNew (index, c.offset) r)[(index', c'.offset)]? = some r') :
    (index = index' ∧ c = c' ∧ r = r') ∨ memo[(index', c'.offset)]? = some r' := by
  rw [Std.HashMap.getElem?_insertIfNew] at h
  split at h
  · next hnew =>
    have hkey : (index, c.offset) = (index', c'.offset) := eq_of_beq hnew.1
    exact .inl ⟨congrArg Prod.fst hkey, Cursor.ext hinput (congrArg Prod.snd hkey), Option.some.inj h⟩
  · exact .inr h

end Packrat
