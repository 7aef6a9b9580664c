import Packrat.Proofs.Runs
import Packrat.Proofs.Trace

/-!
# `Packrat.Proofs.Tracking` — following the evaluation without state

A run of the evaluator is followed together with the failures that the evaluation without state has listed
up to there: the trail sums them up, and every kept result is that of an evaluation whose failures are among
them. The second half is why a kept result may stand for an evaluation that was skipped.

## Contents
- **Trails.** `Trail.SumsUp`, what the trail tells about a list of failures.
- **Silent computations.** `Computes`: they answer as the reference does and change the store only.
- **Faithful states.** `Faithful`, the invariant; `Tracks`, a computation that keeps it.
- **Rules.** `Tracks.pure`, `Tracks.bind` …, one for each way to build a computation.
- **Rules for rule calls.** `Tracks.keeping` and `Tracks.remembering`: the memo changes no answer.
-/

namespace Packrat

variable {α β γ σ : Type}

/-! ## Trails -/

/-- A trail sums up a list of failures: it holds the furthest offset of an attempt among them, and the
labels of the attempts that fail there. -/
structure Trail.SumsUp (t : Trail) (seen : List Failure) : Prop where
  le_furthest : ∀ {offset label}, .attempt offset label ∈ seen → offset ≤ t.furthest
  mem_expected : ∀ {label}, label ∈ t.expected ↔ .attempt t.furthest label ∈ seen
  attained : t.furthest = 0 ∨ ∃ label, .attempt t.furthest label ∈ seen

namespace Trail.SumsUp

variable {t t' : Trail} {seen failures : List Failure}

theorem empty : ({} : Trail).SumsUp [] := ⟨by simp, by simp, .inl rfl⟩

/-- Noting a failure is listing an attempt. -/
theorem note (h : t.SumsUp seen) (offset : Nat) (label : Bytes) :
    (t.note offset label).SumsUp (seen ++ [.attempt offset label]) := by
  unfold Trail.note
  split
  · next hlt =>
    refine ⟨fun hmem => ?_, fun {l} => ?_, .inr ⟨label, by simp⟩⟩
    · rcases List.mem_append.mp hmem with hmem | hmem
      · exact Nat.le_trans (h.le_furthest hmem) (Nat.le_of_lt hlt)
      · simp only [List.mem_singleton, Failure.attempt.injEq] at hmem
        exact Nat.le_of_eq hmem.1
    · -- nothing failed at the new offset before, so the old labels are dropped
      have hfresh : Failure.attempt offset l ∉ seen := fun hmem => by
        have := h.le_furthest hmem
        omega
      simp [hfresh]
  · next hnlt =>
    split
    · next heq =>
      subst heq
      refine ⟨fun hmem => ?_, fun {l} => ?_, .inr ⟨label, by simp⟩⟩
      · rcases List.mem_append.mp hmem with hmem | hmem
        · exact h.le_furthest hmem
        · simp only [List.mem_singleton, Failure.attempt.injEq] at hmem
          exact Nat.le_of_eq hmem.1
      · simp [h.mem_expected, or_comm]
    · next hne =>
      refine ⟨fun hmem => ?_, fun {l} => ?_, ?_⟩
      · rcases List.mem_append.mp hmem with hmem | hmem
        · exact h.le_furthest hmem
        · simp only [List.mem_singleton, Failure.attempt.injEq] at hmem
          omega
      · have hother : ¬t.furthest = offset := fun heq => hne heq.symm
        simp [h.mem_expected, hother]
      · exact h.attained.imp id fun ⟨l, hl⟩ => ⟨l, by simp [hl]⟩

/-- An item that fails leaves no mark. -/
theorem item (h : t.SumsUp seen) (offset : Nat) : t.SumsUp (seen ++ [.item offset]) :=
  ⟨fun hmem => h.le_furthest (by simpa using hmem), by simp [h.mem_expected], by simpa using h.attained⟩

/-- Failures that are listed already change nothing. -/
theorem again (h : t.SumsUp seen) (hsub : failures ⊆ seen) : t.SumsUp (seen ++ failures) := by
  have hmem : ∀ f, f ∈ seen ++ failures ↔ f ∈ seen := fun f => by
    rw [List.mem_append]
    exact ⟨fun hf => hf.elim id (@hsub f), .inl⟩
  exact ⟨fun hf => h.le_furthest ((hmem _).mp hf), by simp only [hmem, h.mem_expected, implies_true],
    h.attained.imp id fun ⟨l, hl⟩ => ⟨l, (hmem _).mpr hl⟩⟩

theorem furthest_le (h : t.SumsUp seen) (h' : t'.SumsUp seen) : t.furthest ≤ t'.furthest := by
  rcases h.attained with hzero | ⟨label, hmem⟩
  · omega
  · exact h'.le_furthest hmem

/-- Two trails that sum up the same failures agree. -/
theorem agree (h : t.SumsUp seen) (h' : t'.SumsUp seen) :
    t.furthest = t'.furthest ∧ ∀ label, label ∈ t.expected ↔ label ∈ t'.expected := by
  have heq := Nat.le_antisymm (h.furthest_le h') (h'.furthest_le h)
  exact ⟨heq, fun label => by rw [h.mem_expected, h'.mem_expected, heq]⟩

end Trail.SumsUp

/-! ## Silent computations -/

/-- A computation answers `e`, and changes nothing but the store, in which positions stay right. -/
def Computes (scene : Scene α σ) (x : EvalM σ β) (e : Except Fault β) : Prop :=
  ∀ p : Progress σ, p.store.locator.Exact scene.input scene.settings.tabs →
    ∃ store : Store σ, store.locator.Exact scene.input scene.settings.tabs ∧
      x.run.run p = (e, { p with store })

namespace Computes

variable {scene : Scene α σ}

theorem pure (b : β) : Computes scene (Pure.pure b) (.ok b) := fun p hp => ⟨p.store, hp, rfl⟩

theorem throw (f : Fault) : Computes scene (β := β) (MonadExcept.throw f) (.error f) :=
  fun p hp => ⟨p.store, hp, rfl⟩

theorem bind {x : EvalM σ β} {e : Except Fault β} {k : β → EvalM σ γ} {g : β → Except Fault γ}
    (hx : Computes scene x e) (hk : ∀ b, Computes scene (k b) (g b)) :
    Computes scene (x >>= k) (e >>= g) := by
  intro p hp
  obtain ⟨st, hst, hrun⟩ := hx p hp
  cases e with
  | error f => exact ⟨st, hst, run_bind_error hrun⟩
  | ok b =>
    obtain ⟨st', hst', hrun'⟩ := hk b { p with store := st } hst
    exact ⟨st', hst', (run_bind_ok hrun).trans hrun'⟩

end Computes

/-! ## Faithful states -/

/-- A result lies on an input. -/
def Result.On (input : Bytes) : Result → Prop
  | .success _ next => next.input = input
  | .failure _ => True

/-- A state is faithful to the failures seen so far: positions are right, the trail sums the failures up,
and a kept result is that of an evaluation in the input whose failures have all been seen. -/
structure Faithful (scene : Scene α σ) (store : Store σ) (p : Progress σ) (seen : List Failure) : Prop where
  exact : p.store.locator.Exact scene.input scene.settings.tabs
  sums : p.trail.SumsUp seen
  kept : ∀ {index offset : Nat} {r : Result}, p.trail.memo[(index, offset)]? = some r →
    ∃ c : Cursor, c.input = scene.input ∧ c.offset = offset ∧ r.On scene.input ∧
      ∃ fs, (scene.basis store).Settles index c ⟨fs, .ok r⟩ ∧ fs ⊆ seen

/-- The evaluation is `t` from some depth on; without a memo, from the given depth on. -/
def Steady (scene : Scene α σ) (depth : Nat) (f : Nat → Traced β) (t : Traced β) : Prop :=
  ∃ n, depth ≤ n ∧ (scene.settings.memoize = false → n = depth) ∧ ∀ m, n ≤ m → f m = t

/-- More depth changes an evaluation only where depth ran out. -/
def Rising (depth : Nat) (f : Nat → Traced β) : Prop :=
  ∀ m, depth ≤ m → (f depth).answer = .error .depth ∨ f m = f depth

/-- How a computation may end if the evaluation without state is `f`: as that evaluation does, for want of
depth, or by a fault of the hook. -/
inductive Verdict (scene : Scene α σ) (depth : Nat) (f : Nat → Traced β) (Q : β → Prop)
    (failures : List Failure) : Except Fault β → Prop
  | answered {b : β} (h : Steady scene depth f ⟨failures, .ok b⟩) (hQ : Q b) :
      Verdict scene depth f Q failures (.ok b)
  | faulted {e : Fault} (h : Steady scene depth f ⟨failures, .error (.fault e)⟩) :
      Verdict scene depth f Q failures (.error e)
  | exhausted (h : (f depth).answer = .error .depth) :
      Verdict scene depth f Q failures (.error .callDepth)
  | interrupted {e : Fault} (h : scene.client.HookRaises e) :
      Verdict scene depth f Q failures (.error e)

/-- The failures of which a part of an evaluation leaves a mark: none inside a lookahead. -/
def heard (quiet : Bool) (failures : List Failure) : List Failure := if quiet then [] else failures

/-- A computation follows an evaluation without state, whose answers satisfy `Q`: from a faithful state it
ends as that evaluation does, in a faithful state. -/
structure Tracks (scene : Scene α σ) (store : Store σ) (depth : Nat) (quiet : Bool) (x : EvalM σ β)
    (f : Nat → Traced β) (Q : β → Prop) : Prop where
  rising : Rising depth f
  holds : ∀ b, (f depth).answer = .ok b → Q b
  run : ∀ p seen, Faithful scene store p seen → ∃ failures answer p',
    x.run.run p = (answer, p') ∧ Verdict scene depth f Q failures answer ∧
      Faithful scene store p' (seen ++ heard quiet failures)

/-! ## Rules -/

section Rules

variable {scene : Scene α σ} {store : Store σ} {depth : Nat} {quiet : Bool} {x : EvalM σ β}
  {f : Nat → Traced β} {Q : β → Prop} {R : γ → Prop} {seen failures failures' : List Failure}
  {p : Progress σ}

theorem heard_nil : heard quiet [] = [] := by cases quiet <;> rfl

theorem heard_append : heard quiet (failures ++ failures') = heard quiet failures ++ heard quiet failures' := by
  cases quiet <;> rfl

/-- A state without a trail is faithful. -/
theorem Faithful.start {s : Store σ} (h : s.locator.Exact scene.input scene.settings.tabs) :
    Faithful scene store ⟨s, {}⟩ [] := by
  refine ⟨h, Trail.SumsUp.empty, ?_⟩
  intro index offset r hr
  rw [Std.HashMap.getElem?_empty] at hr
  cases hr

/-- The result that is kept for a rule at a place is that of its evaluation there. -/
theorem Faithful.known (h : Faithful scene store p seen) {index : Nat} {c : Cursor} {r : Result}
    (hc : c.input = scene.input) (hr : p.trail.memo[(index, c.offset)]? = some r) :
    r.On scene.input ∧ ∃ fs, (scene.basis store).Settles index c ⟨fs, .ok r⟩ ∧ fs ⊆ seen := by
  obtain ⟨c', hc', hoffset, hknown⟩ := h.kept hr
  -- on one input, the offset determines the cursor
  rw [Cursor.ext (hc'.trans hc.symm) hoffset] at hknown
  exact hknown

/-- A state with the same kept results stays faithful when more is seen. -/
theorem Faithful.extend {p' : Progress σ} (h : Faithful scene store p seen)
    (hexact : p'.store.locator.Exact scene.input scene.settings.tabs)
    (hmemo : p'.trail.memo = p.trail.memo) (hsums : p'.trail.SumsUp (seen ++ failures)) :
    Faithful scene store p' (seen ++ failures) := by
  refine ⟨hexact, hsums, fun hr => ?_⟩
  rw [hmemo] at hr
  obtain ⟨c, hc, hoffset, hon, fs, hsettles, hfs⟩ := h.kept hr
  exact ⟨c, hc, hoffset, hon, fs, hsettles, fun _ hf => List.mem_append_left _ (hfs hf)⟩

theorem Faithful.silent (h : Faithful scene store p seen) :
    Faithful scene store p (seen ++ heard true failures) := by
  show Faithful scene store p (seen ++ [])
  rw [List.append_nil]
  exact h

/-- Failures that have been seen may be seen again. -/
theorem Faithful.again (h : Faithful scene store p seen) (hsub : failures ⊆ seen) :
    Faithful scene store p (seen ++ heard quiet failures) := by
  cases quiet with
  | true => exact h.silent
  | false => exact h.extend h.exact rfl (h.sums.again hsub)

theorem Steady.const (t : Traced β) : Steady scene depth (fun _ => t) t :=
  ⟨depth, Nat.le_refl _, fun _ => rfl, fun _ _ => rfl⟩

/-- Two evaluations that are steady from some depth on are both so from the larger of the depths on. -/
theorem Steady.bind {t : Traced β} {g : β → Nat → Traced γ} {b : β} {u : Traced γ}
    (hf : Steady scene depth f t) (hanswer : t.answer = .ok b) (hg : Steady scene depth (g b) u) :
    Steady scene depth (fun m => f m >>= fun b => g b m) ⟨t.failures ++ u.failures, u.answer⟩ := by
  obtain ⟨n, hn, hmemo, hf⟩ := hf
  obtain ⟨n', hn', hmemo', hg⟩ := hg
  refine ⟨max n n', Nat.le_trans hn (Nat.le_max_left _ _), fun hoff => ?_, fun m hm => ?_⟩
  · rw [hmemo hoff, hmemo' hoff, Nat.max_self]
  · show f m >>= (fun b => g b m) = _
    rw [hf m (by omega), Traced.bind_ok hanswer, hg m (by omega)]

theorem Steady.bind_error {t : Traced β} {g : β → Nat → Traced γ} {e : Stop}
    (hf : Steady scene depth f t) (hanswer : t.answer = .error e) :
    Steady scene depth (fun m => f m >>= fun b => g b m) ⟨t.failures, .error e⟩ := by
  obtain ⟨n, hn, hmemo, hf⟩ := hf
  refine ⟨n, hn, hmemo, fun m hm => ?_⟩
  show f m >>= (fun b => g b m) = _
  rw [hf m hm, Traced.bind_error hanswer]

theorem Rising.bind {g : β → Nat → Traced γ} (hf : Rising depth f)
    (hg : ∀ b, (f depth).answer = .ok b → Rising depth (g b)) :
    Rising depth (fun m => f m >>= fun b => g b m) := by
  intro m hm
  show (f depth >>= fun b => g b depth).answer = .error .depth ∨
    (f m >>= fun b => g b m) = (f depth >>= fun b => g b depth)
  cases hanswer : (f depth).answer with
  | error e =>
    rcases hf m hm with hdepth | hsame
    · left
      rw [Traced.bind_error hdepth]
    · -- a fault of the first part hides the second one
      right
      rw [hsame, Traced.bind_error hanswer, Traced.bind_error hanswer]
  | ok b =>
    have hsame : f m = f depth := (hf m hm).resolve_left fun h => by
      rw [hanswer] at h
      cases h
    rw [hsame, Traced.bind_ok hanswer, Traced.bind_ok hanswer]
    exact (hg b hanswer m hm).imp id fun h => by rw [h]

/-- A verdict on one evaluation carries over to another that is steady and runs out of depth when it does. -/
theorem Verdict.imp {depth' : Nat} {f' : Nat → Traced β} {answer : Except Fault β}
    (h : Verdict scene depth f Q failures answer)
    (hsteady : ∀ e, Steady scene depth f ⟨failures, e⟩ → Steady scene depth' f' ⟨failures', e⟩)
    (hexhausted : (f depth).answer = .error .depth → (f' depth').answer = .error .depth) :
    Verdict scene depth' f' Q failures' answer := by
  cases h with
  | answered hf hb => exact .answered (hsteady _ hf) hb
  | faulted hf => exact .faulted (hsteady _ hf)
  | exhausted hf => exact .exhausted (hexhausted hf)
  | interrupted hraises => exact .interrupted hraises

/-- The verdict on the second part of an evaluation, after a first part that has an answer. -/
theorem Verdict.after {g : β → Nat → Traced γ} {b : β} {answer : Except Fault γ}
    (hf : Steady scene depth f ⟨failures, .ok b⟩) (hrising : Rising depth f)
    (h : Verdict scene depth (g b) R failures' answer) :
    Verdict scene depth (fun m => f m >>= fun b => g b m) R (failures ++ failures') answer := by
  refine h.imp (fun e hg => hf.bind rfl hg) fun hg => ?_
  obtain ⟨n, hn, _, hf⟩ := hf
  rcases hrising n hn with hdepth | hsame
  · rw [Traced.bind_error hdepth]
  · -- the depth sufficed for the first part
    have hok : (f depth).answer = .ok b := by rw [← hsame, hf n (Nat.le_refl n)]
    rw [Traced.bind_ok hok]
    exact hg

namespace Tracks

theorem pure {b : β} (hb : Q b) :
    Tracks scene store depth quiet (Pure.pure b) (fun _ => Pure.pure b) Q := by
  refine ⟨fun _ _ => .inr rfl, fun b' hb' => ?_, fun p seen hp => ?_⟩
  · cases hb'
    exact hb
  · exact ⟨[], .ok b, p, rfl, .answered (.const _) hb, hp.again (List.nil_subset _)⟩

/-- A computation that fails nowhere. -/
theorem lift {e : Except Fault β} (hx : Computes scene x e) (hQ : ∀ b, e = .ok b → Q b) :
    Tracks scene store depth quiet x (fun _ => Traced.lift e) Q := by
  refine ⟨fun _ _ => .inr rfl, fun b hb => ?_, fun p seen hp => ?_⟩
  · cases e with
    | ok b' => exact hQ b (congrArg _ (Except.ok.inj hb))
    | error err => cases hb
  · obtain ⟨st, hst, hrun⟩ := hx p hp.exact
    have hp' : Faithful scene store { p with store := st } seen := ⟨hst, hp.sums, hp.kept⟩
    refine ⟨[], e, _, hrun, ?_, hp'.again (List.nil_subset _)⟩
    cases e with
    | ok b => exact .answered (.const _) (hQ b rfl)
    | error err => exact .faulted (.const _)

/-- A computation that raises a fault. -/
theorem fault (e : Fault) :
    Tracks scene store depth quiet (throw e) (fun _ => Traced.lift (.error e)) Q := by
  refine lift (Computes.throw e) fun b hb => ?_
  cases hb

/-- One computation after another. -/
theorem bind {k : β → EvalM σ γ} {g : β → Nat → Traced γ} (hx : Tracks scene store depth quiet x f Q)
    (hk : ∀ b, Q b → Tracks scene store depth quiet (k b) (g b) R) :
    Tracks scene store depth quiet (x >>= k) (fun m => f m >>= fun b => g b m) R := by
  refine ⟨hx.rising.bind fun b hb => (hk b (hx.holds b hb)).rising, fun c hc => ?_, fun p seen hp => ?_⟩
  · cases hanswer : (f depth).answer with
    | error e =>
      rw [Traced.bind_error hanswer] at hc
      cases hc
    | ok b =>
      rw [Traced.bind_ok hanswer] at hc
      exact (hk b (hx.holds b hanswer)).holds c hc
  · obtain ⟨failures, answer, p₁, hrun, hverdict, hp₁⟩ := hx.run p seen hp
    cases hverdict with
    | @answered b hf hb =>
      obtain ⟨failures', answer', p₂, hrun', hverdict', hp₂⟩ := (hk b hb).run p₁ _ hp₁
      rw [List.append_assoc, ← heard_append] at hp₂
      exact ⟨failures ++ failures', answer', p₂, (run_bind_ok hrun).trans hrun',
        hverdict'.after hf hx.rising, hp₂⟩
    -- the second part is not reached
    | faulted hf => exact ⟨failures, _, p₁, run_bind_error hrun, .faulted (hf.bind_error rfl), hp₁⟩
    | exhausted hf =>
      exact ⟨failures, _, p₁, run_bind_error hrun, .exhausted (by rw [Traced.bind_error hf]), hp₁⟩
    | interrupted hraises => exact ⟨failures, _, p₁, run_bind_error hrun, .interrupted hraises, hp₁⟩

/-- Inside a lookahead nothing is heard, so the failures there may be forgotten. -/
theorem hush (hx : Tracks scene store depth true x f Q) :
    Tracks scene store depth quiet x (fun m => (f m).hush) Q := by
  refine ⟨fun m hm => (hx.rising m hm).imp id fun h => by rw [h], hx.holds, fun p seen hp => ?_⟩
  obtain ⟨failures, answer, p', hrun, hverdict, hp'⟩ := hx.run p seen hp
  refine ⟨[], answer, p', hrun, hverdict.imp (fun e hf => ?_) fun hf => hf, by rw [heard_nil]; exact hp'⟩
  obtain ⟨n, hn, hmemo, hf⟩ := hf
  exact ⟨n, hn, hmemo, fun m hm => congrArg Traced.hush (hf m hm)⟩

/-- Noting a failure, unless inside a lookahead. -/
theorem note (offset : Nat) (label : Bytes) :
    Tracks scene store depth quiet (noteFailure quiet offset label)
      (fun _ => Traced.log (.attempt offset label)) (fun _ => True) := by
  refine ⟨fun _ _ => .inr rfl, fun _ _ => trivial, fun p seen hp => ?_⟩
  cases quiet with
  | true => exact ⟨_, .ok (), p, rfl, .answered (.const _) trivial, hp.silent⟩
  | false =>
    have hp' : Faithful scene store { p with trail := p.trail.note offset label }
        (seen ++ [.attempt offset label]) :=
      hp.extend hp.exact (Trail.memo_note _ _ _) (hp.sums.note offset label)
    exact ⟨_, .ok (), _, rfl, .answered (.const _) trivial, hp'⟩

/-- An item that fails is listed, but the evaluator does not note it. -/
theorem item (offset : Nat) {b : β} (hb : Q b) :
    Tracks scene store depth quiet (Pure.pure b)
      (fun _ => do Traced.log (.item offset); Pure.pure b) Q := by
  refine ⟨fun _ _ => .inr rfl, fun b' hb' => ?_, fun p seen hp => ?_⟩
  · cases hb'
    exact hb
  · refine ⟨[.item offset], .ok b, p, rfl, .answered (.const _) hb, ?_⟩
    cases quiet with
    | true => exact hp.silent
    | false => exact hp.extend hp.exact rfl (hp.sums.item offset)

end Tracks

end Rules

/-! ## Rules for rule calls -/

section Calls

variable {scene : Scene α σ} {store : Store σ} {depth : Nat}

/-- The result of a settled evaluation may be kept once its failures have been seen. -/
theorem Faithful.keep {p : Progress σ} {seen failures : List Failure} {index : Nat} {c : Cursor} {r : Result}
    (h : Faithful scene store p seen) (hc : c.input = scene.input) (hr : r.On scene.input)
    (hsettles : (scene.basis store).Settles index c ⟨failures, .ok r⟩) (hsub : failures ⊆ seen) :
    Faithful scene store
      { p with trail := { p.trail with memo := p.trail.memo.insertIfNew (index, c.offset) r } } seen := by
  refine ⟨h.exact, ⟨h.sums.le_furthest, h.sums.mem_expected, h.sums.attained⟩, ?_⟩
  intro index' offset' r' hr'
  rw [Std.HashMap.getElem?_insertIfNew] at hr'
  split at hr'
  · next hnew =>
    have hkey : (index, c.offset) = (index', offset') := eq_of_beq hnew.1
    cases hkey
    cases hr'
    exact ⟨c, hc, rfl, hr, failures, hsettles, hsub⟩
  · exact h.kept hr'

namespace Tracks

variable {quiet : Bool} {x : EvalM σ Result} {f : Nat → Traced β} {Q : β → Prop} {index : Nat} {c : Cursor}

/-- A hook goes unnoticed unless it raises a fault. -/
theorem hook (call : Call) :
    Tracks scene store depth quiet (onUser (scene.client.onCall call)) (fun _ => Pure.pure ())
      (fun _ => True) := by
  refine ⟨fun _ _ => .inr rfl, fun _ _ => trivial, fun p seen hp => ?_⟩
  refine ⟨[], _, _, run_onUser _ p, ?_, ?_⟩
  · cases hanswer : ((scene.client.onCall call).run.run p.store.user).1 with
    | ok _ => exact .answered (.const _) trivial
    | error e => exact .interrupted ⟨call, p.store.user, hanswer⟩
  · rw [heard_nil]
    exact hp.extend hp.exact rfl (hp.sums.again (List.nil_subset _))

theorem hooked {x : EvalM σ β} (call : Call) (hx : Tracks scene store depth quiet x f Q) :
    Tracks scene store depth quiet (onUser (scene.client.onCall call) >>= fun _ => x) f Q := by
  have hhook : Tracks scene store depth quiet (onUser (scene.client.onCall call))
      (fun _ => Pure.pure ()) (fun _ => True) := hook call
  exact hhook.bind (g := fun _ => f) fun _ _ => hx

/-- No depth is left. -/
theorem exhaust (hf : f depth = ⟨[], .error .depth⟩) :
    Tracks scene store depth quiet (throw .callDepth) f Q := by
  have hanswer : (f depth).answer = .error .depth := congrArg Traced.answer hf
  refine ⟨fun _ _ => .inl hanswer, fun b hb => ?_, fun p seen hp => ?_⟩
  · rw [hanswer] at hb
    cases hb
  · exact ⟨[], _, p, rfl, .exhausted hanswer, hp.again (List.nil_subset _)⟩

/-- One level of calls uses up one unit of depth. -/
theorem deepen {x : EvalM σ β} (hx : Tracks scene store depth quiet x (fun m => f (m + 1)) Q) :
    Tracks scene store (depth + 1) quiet x f Q := by
  -- every depth from `depth + 1` on is a successor
  have hpred : ∀ {n m : Nat}, n + 1 ≤ m → ∃ m', m = m' + 1 ∧ n ≤ m' := fun {n m} hm =>
    ⟨m - 1, by omega, by omega⟩
  refine ⟨fun m hm => ?_, hx.holds, fun p seen hp => ?_⟩
  · obtain ⟨m, rfl, hm'⟩ := hpred hm
    exact hx.rising m hm'
  · obtain ⟨failures, answer, p', hrun, hverdict, hp'⟩ := hx.run p seen hp
    refine ⟨failures, answer, p', hrun, hverdict.imp (fun e hf => ?_) fun hf => hf, hp'⟩
    obtain ⟨n, hn, hmemo, hf⟩ := hf
    refine ⟨n + 1, by omega, fun hoff => by rw [hmemo hoff], fun m hm => ?_⟩
    obtain ⟨m, rfl, hm'⟩ := hpred hm
    exact hf m hm'

/-- Keeping the result of a call changes nothing about it. -/
theorem keeping (hc : c.input = scene.input)
    (hx : Tracks scene store depth quiet x (fun m => traceCall (scene.basis store) m index c)
      (Result.On scene.input)) :
    Tracks scene store depth quiet
      (x >>= fun r => keep scene quiet index c.offset r >>= fun _ => Pure.pure r)
      (fun m => traceCall (scene.basis store) m index c) (Result.On scene.input) := by
  refine ⟨hx.rising, hx.holds, fun p seen hp => ?_⟩
  obtain ⟨failures, answer, p', hrun, hverdict, hp'⟩ := hx.run p seen hp
  cases hverdict with
  | faulted hf => exact ⟨failures, _, p', run_bind_error hrun, .faulted hf, hp'⟩
  | exhausted hf => exact ⟨failures, _, p', run_bind_error hrun, .exhausted hf, hp'⟩
  | interrupted hraises => exact ⟨failures, _, p', run_bind_error hrun, .interrupted hraises, hp'⟩
  | @answered r hf hr =>
    refine ⟨failures, .ok r, _, (run_bind_ok hrun).trans (run_keep scene quiet _ _ r p'),
      .answered hf hr, ?_⟩
    split
    · next hkeep =>
      have hquiet : quiet = false := by
        rw [Bool.and_eq_true, Bool.not_eq_true'] at hkeep
        exact hkeep.2
      subst hquiet
      -- outside of lookaheads all failures of the call have been heard
      obtain ⟨n, _, _, hsettles⟩ := hf
      exact hp'.keep hc hr ⟨n, hsettles⟩ (List.subset_append_right seen failures)
    · exact hp'

/-- A result that is kept stands for the evaluation that it came from. -/
theorem remembering (hc : c.input = scene.input)
    (hx : Tracks scene store depth quiet x (fun m => traceCall (scene.basis store) m index c)
      (Result.On scene.input)) :
    Tracks scene store depth quiet
      (kept? scene index c.offset >>= fun known =>
        match known with
        | some r => Pure.pure r
        | none => x)
      (fun m => traceCall (scene.basis store) m index c) (Result.On scene.input) := by
  refine ⟨hx.rising, hx.holds, fun p seen hp => ?_⟩
  rw [run_bind_ok (run_kept? scene index c.offset p)]
  split
  · next r hknown =>
    split at hknown
    · next hmemo =>
      obtain ⟨hr, failures, ⟨n, hf⟩, hsub⟩ := hp.known hc hknown
      refine ⟨failures, .ok r, p, rfl, .answered ?_ hr, hp.again hsub⟩
      -- the result may be that of a call that had more depth left
      refine ⟨max n depth, Nat.le_max_right _ _, fun hoff => ?_, fun m hm => hf m (by omega)⟩
      rw [hoff] at hmemo
      cases hmemo
    · cases hknown
  · exact hx.run p seen hp

end Tracks

end Calls

end Packrat
