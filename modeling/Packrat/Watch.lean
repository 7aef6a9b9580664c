import Packrat.Action

/-!
# `Packrat.Watch` — recording and bounding the rule calls of a parse

## Contents
- **The record.** `Watch` holds the calls since the last reset and how many more are allowed.
- **The hook.** `Watch.call` records a call and interrupts the parse at the first one too many.
- **Watched clients.** `Client.watched` puts a watch on any client.
-/

namespace Packrat

/-! ## The record -/

/-- A record of rule calls. `budget` is the number of calls that a parse may make, if that is bounded, and
`left` how many of them remain. -/
structure Watch where
  resets : Nat := 0
  /-- The calls since the last reset, the latest first. -/
  calls : List Call := []
  budget : Option Nat := none
  left : Option Nat := none

namespace Watch

/-- The record at the start of a parse. -/
def reset (w : Watch) : Watch := ⟨w.resets + 1, [], w.budget, w.budget⟩

/-- The record with another budget, none of which is used. -/
def setBudget (w : Watch) (budget : Option Nat) : Watch := { w with budget, left := budget }

/-! ## The hook -/

/-- Records a call. If none is left, the call is recorded too, and interrupts the parse. -/
def call (c : Call) : HookM Watch Unit := do
  modify fun w => { w with calls := c :: w.calls }
  match (← get).left with
  | none => pure ()
  | some 0 => throw .interrupted
  | some (n + 1) => modify fun w => { w with left := some n }

end Watch

/-! ## Watched clients -/

/-- A client with a watch in front of its own state. -/
def Client.watched {α σ : Type} (client : Client α σ) : Client α (Watch × σ) where
  act a ctx := ExceptT.mk fun store =>
    let (answer, inner) := (client.act a ctx).run.run ⟨store.locator, store.user.2⟩
    (answer, ⟨inner.locator, (store.user.1, inner.user)⟩)
  onReset := fun (w, user) => (w.reset, client.onReset user)
  onCall c := do
    ExceptT.mk fun (w, user) =>
      let (answer, w) := (Watch.call c).run.run w
      (answer, (w, user))
    ExceptT.mk fun (w, user) =>
      let (answer, user) := (client.onCall c).run.run user
      (answer, (w, user))

end Packrat
