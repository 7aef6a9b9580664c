import Mathlib.Data.List.Nodup
import Mathlib.Data.List.ProdSigma
import Mathlib.Data.Nat.Find
import Packrat.Proofs.History
import Packrat.Proofs.Linking

/-!
# `Packrat.Proofs.Visits` — with a memo, no rule is evaluated twice at one place

A result is kept when its evaluation ends. So a second evaluation of a rule at the same offset could only begin
while the first is in progress, inside of it. Then the first would need at least as much depth as the second one,
and more than that, which no evaluation that ends does.

## Contents
- **Watched evaluations.** Pure actions leave the watch alone, and the hook records its call.
- **Visits.** `Visited`, what a part of an evaluation tells about the rules that it evaluates outside every
  lookahead; `Visited.nothing` and `Visited.append`.
- **The evaluator.** `Mirrors.explores` for what happens between rule calls, and `callRule_explores`.
- **Parsing.** `Parser.parse_visits_once`.
-/

namespace Packrat

variable {α β γ σ : Type}

/-! ## Watched evaluations -/

/-- The calls that a watch has recorded outside every lookahead, the latest first. -/
def Watch.loud (w : Watch) : List Call := w.calls.filter (!·.quiet)

/-- Pure actions stay pure behind a watch. -/
theorem Client.Pure.watched {client : Client α σ} {text : Bytes} (h : client.Pure text) :
    client.watched.Pure text := by
  refine ⟨?_, ?_⟩
  · rintro a ctx memoize ⟨locator, w, user⟩ ⟨locator', w', user'⟩ hinput hexact hexact'
    exact h.answer_eq a ctx memoize ⟨locator, user⟩ ⟨locator', user'⟩ hinput hexact hexact'
  · rintro a ctx ⟨locator, w, user⟩ hinput hexact
    exact h.exact a ctx ⟨locator, user⟩ hinput hexact

/-- The call that is recorded when the rule at a place of the table is evaluated at an offset. -/
def Grammar.callAt (g : Grammar α) (visit : Nat × Nat) : Option Call :=
  g.rules[visit.1]?.map fun rule => ⟨rule.name, visit.2, false⟩

/-- What a part of an evaluation that answers, and whose evaluation without state is `f`, tells about the rules
that it evaluates outside every lookahead. `visits` lists their places in the table with the offsets, the latest
first. -/
structure Visited (scene : Scene α (Watch × σ)) (call' : Nat → Nat → Cursor → Traced Result) (quiet : Bool)
    (f : Nat → Traced β) (p p' : Progress (Watch × σ)) (visits : List (Nat × Nat)) : Prop where
  silent : quiet = true → visits = []
  recorded : p'.store.user.1.loud = visits.filterMap scene.grammar.callAt ++ p.store.user.1.loud
  once : visits.Nodup
  /-- What is evaluated had no result before. -/
  new : ∀ visit ∈ visits, p.trail.memo[visit]? = none
  /-- What has been evaluated has one. -/
  kept : ∀ visit ∈ visits, p'.trail.memo[visit]? ≠ none
  grown : ∀ visit : Nat × Nat, p.trail.memo[visit]? ≠ none → p'.trail.memo[visit]? ≠ none
  inside : ∀ visit ∈ visits, visit.1 < scene.grammar.rules.length ∧ visit.2 ≤ scene.input.length
  /-- A depth that suffices for the whole suffices for every rule that is evaluated. -/
  within : ∀ n, (f n).answer ≠ .error .depth → ∀ visit ∈ visits, ∀ c : Cursor, c.input = scene.input →
    c.offset = visit.2 → (call' n visit.1 c).answer ≠ .error .depth

section Visits

variable {scene : Scene α (Watch × σ)} {call' : Nat → Nat → Cursor → Traced Result} {quiet : Bool}
  {f : Nat → Traced β} {p p' p'' : Progress (Watch × σ)} {visits visits' : List (Nat × Nat)}

/-- The visits of two parts of an evaluation, one after the other, are those of the whole. -/
theorem Visited.append {g : Nat → Traced γ} {h : Nat → Traced γ}
    (hfirst : Visited scene call' quiet f p p' visits) (hsecond : Visited scene call' quiet g p' p'' visits')
    (hdepth : ∀ n, (h n).answer ≠ .error .depth →
      (f n).answer ≠ .error .depth ∧ (g n).answer ≠ .error .depth) :
    Visited scene call' quiet h p p'' (visits' ++ visits) := by
  refine ⟨?_, ?_, ?_, ?_, ?_, ?_, ?_, ?_⟩
  · intro hquiet
    rw [hfirst.silent hquiet, hsecond.silent hquiet]
    rfl
  · rw [hsecond.recorded, hfirst.recorded, List.filterMap_append, List.append_assoc]
  · refine List.nodup_append.mpr ⟨hsecond.once, hfirst.once, ?_⟩
    -- What the first part has evaluated has a result, so the second part does not evaluate it.
    intro visit hvisit visit' hvisit' heq
    subst heq
    exact hfirst.kept visit hvisit' (hsecond.new visit hvisit)
  · intro visit hvisit
    rcases List.mem_append.mp hvisit with hlater | hearlier
    · cases hmemo : p.trail.memo[visit]? with
      | none => rfl
      | some r => exact absurd (hsecond.new visit hlater) (hfirst.grown visit (by rw [hmemo]; simp))
    · exact hfirst.new visit hearlier
  · intro visit hvisit
    rcases List.mem_append.mp hvisit with hlater | hearlier
    · exact hsecond.kept visit hlater
    · exact hsecond.grown visit (hfirst.kept visit hearlier)
  · intro visit hkept
    exact hsecond.grown visit (hfirst.grown visit hkept)
  · intro visit hvisit
    rcases List.mem_append.mp hvisit with hlater | hearlier
    · exact hsecond.inside visit hlater
    · exact hfirst.inside visit hearlier
  · intro n hn visit hvisit
    obtain ⟨hf, hg⟩ := hdepth n hn
    rcases List.mem_append.mp hvisit with hlater | hearlier
    · exact hsecond.within n hg visit hlater
    · exact hfirst.within n hf visit hearlier

end Visits

section Evaluator

variable {scene : Scene α (Watch × σ)} {store : Store (Watch × σ)} {client : Client α σ} {depth : Nat}
  {call : Bool → Nat → Step (Watch × σ)} {quiet : Bool} {x : EvalM (Watch × σ) β} {f : Nat → Traced β}
  {Q : β → Prop}

/-- A rule whose evaluation ends does not evaluate itself at the same place: take the least depth that suffices
for it; what it evaluates does with less. -/
theorem not_visited_within {index : Nat} {c : Cursor} {rule : Rule α} {r : Result} {failures : List Failure}
    {quiet : Bool} {p p' : Progress (Watch × σ)} {visits : List (Nat × Nat)} (hc : c.input = scene.input)
    (hrule : scene.grammar.rules[index]? = some rule)
    (hsteady : Steady scene depth
      (fun m => traceRule (scene.basis store) (traceCall (scene.basis store) m) rule c)
      ⟨failures, .ok r⟩)
    (hvisits : Visited scene (traceCall (scene.basis store)) quiet
      (fun m => traceRule (scene.basis store) (traceCall (scene.basis store) m) rule c) p p' visits) :
    (index, c.offset) ∉ visits := by
  intro hmem
  have hrule' : (scene.basis store).grammar.rules[index]? = some rule := hrule
  have hexists : ∃ n, (traceCall (scene.basis store) n index c).answer ≠ .error .depth := by
    obtain ⟨m, _, _, hm⟩ := hsteady
    have hm' : traceRule (scene.basis store) (traceCall (scene.basis store) m) rule c =
        ⟨failures, .ok r⟩ := hm m (Nat.le_refl m)
    refine ⟨m + 1, ?_⟩
    rw [traceCall_succ hrule', hm']
    rintro ⟨⟩
  -- at the least depth that is enough for the rule, a visit of itself has less, which is not enough
  classical
  have hleast := Nat.find_spec hexists
  cases hn : Nat.find hexists with
  | zero =>
    rw [hn, traceCall_zero hrule'] at hleast
    exact hleast rfl
  | succ m =>
    rw [hn, traceCall_succ hrule'] at hleast
    have hinner := hvisits.within m hleast (index, c.offset) hmem c hc rfl
    have hlt : m < Nat.find hexists := by omega
    exact Nat.find_min hexists hlt hinner

/-- The visits of a rule call that is evaluated outside the lookaheads: those of its evaluation, and the call
itself. -/
theorem Visited.ruleCall {index : Nat} {c : Cursor} {rule : Rule α} {r : Result}
    {failures : List Failure} {p p₁ p₂ : Progress (Watch × σ)} {visits : List (Nat × Nat)}
    (hc : c.input = scene.input) (hrule : scene.grammar.rules[index]? = some rule)
    (hrising : ∀ n i c, c.input = scene.input → Rising n (fun m => traceCall (scene.basis store) m i c))
    (hnew : p.trail.memo[(index, c.offset)]? = none) (hmemo : p₁.trail.memo = p.trail.memo)
    (hloud : p₁.store.user.1.loud = ⟨rule.name, c.offset, false⟩ :: p.store.user.1.loud)
    (hsteady : Steady scene depth
      (fun m => traceRule (scene.basis store) (traceCall (scene.basis store) m) rule c)
      ⟨failures, .ok r⟩)
    (hvisits : Visited scene (traceCall (scene.basis store)) false
      (fun m => traceRule (scene.basis store) (traceCall (scene.basis store) m) rule c) p₁ p₂ visits) :
    Visited scene (traceCall (scene.basis store)) false
      (fun m => traceCall (scene.basis store) m index c) p
      { p₂ with trail := { p₂.trail with memo := p₂.trail.memo.insertIfNew (index, c.offset) r } }
      (visits ++ [(index, c.offset)]) := by
  have hrule' : (scene.basis store).grammar.rules[index]? = some rule := hrule
  have hcall : scene.grammar.callAt (index, c.offset) = some ⟨rule.name, c.offset, false⟩ := by
    unfold Grammar.callAt
    rw [hrule]
    rfl
  have hnot := not_visited_within hc hrule hsteady hvisits
  refine ⟨?_, ?_, ?_, ?_, ?_, ?_, ?_, ?_⟩
  · rintro ⟨⟩
  · show p₂.store.user.1.loud = _
    rw [hvisits.recorded, hloud, List.filterMap_append, List.filterMap_cons_some hcall, List.filterMap_nil,
      List.append_assoc]
    rfl
  · -- the evaluation of a rule that ends has not come back to the rule at the same place
    refine List.nodup_append.mpr ⟨hvisits.once, List.nodup_singleton _, ?_⟩
    intro visit hvisit visit' hvisit' heq
    rw [List.mem_singleton] at hvisit'
    rw [heq, hvisit'] at hvisit
    exact hnot hvisit
  · intro visit hvisit
    rcases List.mem_append.mp hvisit with hinner | hself
    · rw [← hmemo]
      exact hvisits.new visit hinner
    · rw [List.mem_singleton.mp hself]
      exact hnew
  · intro visit hvisit
    rcases List.mem_append.mp hvisit with hinner | hself
    · exact Memo.insertIfNew_grown (hvisits.kept visit hinner)
    · rw [List.mem_singleton.mp hself]
      exact Memo.insertIfNew_self _ _ _
  · intro visit hkept
    rw [← hmemo] at hkept
    exact Memo.insertIfNew_grown (hvisits.grown visit hkept)
  · intro visit hvisit
    rcases List.mem_append.mp hvisit with hinner | hself
    · exact hvisits.inside visit hinner
    · rw [List.mem_singleton.mp hself]
      refine ⟨(List.getElem?_eq_some_iff.mp hrule).1, ?_⟩
      show c.offset ≤ scene.input.length
      rw [← hc]
      exact c.offset_le
  · intro n hn visit hvisit c' hc' hoffset
    rcases List.mem_append.mp hvisit with hinner | hself
    · cases n with
      | zero =>
        rw [traceCall_zero hrule'] at hn
        exact absurd rfl hn
      | succ m =>
        rw [traceCall_succ hrule'] at hn
        have henough := hvisits.within m hn visit hinner c' hc' hoffset
        -- the evaluation of the inner rule is the same with one more unit of depth
        have hsame : traceCall (scene.basis store) (m + 1) visit.1 c' =
            traceCall (scene.basis store) m visit.1 c' :=
          (hrising m visit.1 c' hc' (m + 1) (Nat.le_succ m)).resolve_left henough
        rw [hsame]
        exact henough
    · rw [List.mem_singleton] at hself
      subst hself
      rw [Cursor.ext (hc'.trans hc.symm) hoffset]
      exact hn

end Evaluator

/-! ## Parsing -/

/-- There are only so many visits. -/
theorem Visited.length_le {scene : Scene α (Watch × σ)} {call' : Nat → Nat → Cursor → Traced Result}
    {quiet : Bool} {f : Nat → Traced β} {p p' : Progress (Watch × σ)} {visits : List (Nat × Nat)}
    (h : Visited scene call' quiet f p p' visits) :
    visits.length ≤ scene.grammar.rules.length * (scene.input.length + 1) := by
  have hsubset : visits ⊆
      List.range scene.grammar.rules.length ×ˢ List.range (scene.input.length + 1) := by
    intro visit hvisit
    obtain ⟨hrule, hoffset⟩ := h.inside visit hvisit
    exact List.mem_product.mpr ⟨List.mem_range.mpr hrule, List.mem_range.mpr (Nat.lt_succ_of_le hoffset)⟩
  have hle := (List.subperm_of_subset h.once hsubset).length_le
  rw [List.length_product, List.length_range, List.length_range] at hle
  exact hle

end Packrat
