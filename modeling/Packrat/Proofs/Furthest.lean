import Packrat.Proofs.Memoization

/-!
# `Packrat.Proofs.Furthest` — the reported offset and the furthest failing item

A syntax error is reported at the larger of two offsets: the furthest one at which an attempt failed, and the
one at which the start rule failed. Neither tells where a predicate failed in an alternative that was given
up, since a choice fails at the earliest of its offsets. So the report never lies beyond the furthest failing
item, but it may lie before it.

## Contents
- **Lists of failures.** `furthestItem`, and `Accounted`: every attempt lies before an item that fails, or
  before the place where matching went on.
- **Rules.** `Ends`, what holds at the end of a part of an evaluation without state.
- **The evaluation.** `Result.Charted` for bodies, expressions, items and rules.
- **Reports.** `Parser.parse_offset_furthest`.
-/

namespace Packrat

variable {α β γ σ : Type}

-- the linter does not see an assumption that only a companion of a mutual block uses
set_option linter.unusedSectionVars false

/-! ## Lists of failures -/

/-- The furthest offset at which an item fails, or 0 if none does. -/
def furthestItem : List Failure → Nat
  | [] => 0
  | .attempt _ _ :: rest => furthestItem rest
  | .item offset :: rest => max offset (furthestItem rest)

theorem le_furthestItem {failures : List Failure} {offset : Nat} (h : .item offset ∈ failures) :
    offset ≤ furthestItem failures := by
  induction failures with
  | nil => cases h
  | cons f rest ih =>
    rcases List.mem_cons.mp h with heq | hrest
    · subst heq
      exact Nat.le_max_left _ _
    · have hle := ih hrest
      cases f with
      | attempt o label => exact hle
      | item o => exact Nat.le_trans hle (Nat.le_max_right _ _)

theorem furthestItem_append (fs fs' : List Failure) :
    furthestItem (fs ++ fs') = max (furthestItem fs) (furthestItem fs') := by
  induction fs with
  | nil => exact (Nat.zero_max _).symm
  | cons f rest ih =>
    cases f with
    | attempt o label => exact ih
    | item o =>
      show max o (furthestItem (rest ++ fs')) = max (max o (furthestItem rest)) (furthestItem fs')
      rw [ih, Nat.max_assoc]

/-- Every attempt that fails does so at or before `stop`, or an item fails there or further on. -/
def Accounted (failures : List Failure) (stop : Nat) : Prop :=
  ∀ offset label, .attempt offset label ∈ failures → offset ≤ stop ∨ offset ≤ furthestItem failures

namespace Accounted

variable {failures : List Failure} {stop stop' : Nat}

theorem nil (stop : Nat) : Accounted [] stop := fun _ _ h => by cases h

theorem mono (h : Accounted failures stop) (hle : stop ≤ stop') : Accounted failures stop' :=
  fun offset label hmem => (h offset label hmem).imp (Nat.le_trans · hle) id

/-- An attempt that fails where matching goes on is accounted for. -/
theorem attempt (h : Accounted failures stop) (label : Bytes) :
    Accounted (failures ++ [.attempt stop label]) stop := by
  intro offset label' hmem
  rw [furthestItem_append]
  rcases List.mem_append.mp hmem with hmem | hmem
  · have hle := h offset label' hmem
    omega
  · simp only [List.mem_singleton, Failure.attempt.injEq] at hmem
    exact .inl (Nat.le_of_eq hmem.1)

/-- An item that fails accounts for all attempts up to it. -/
theorem item (h : Accounted failures stop) : Accounted (failures ++ [.item stop]) 0 := by
  intro offset label hmem
  have hmem : .attempt offset label ∈ failures := by simpa using hmem
  have hle := h offset label hmem
  have hstop : stop ≤ furthestItem [.item stop] := Nat.le_max_left _ _
  rw [furthestItem_append]
  omega

end Accounted

/-! ## Rules -/

/-- What holds at the end of an evaluation that starts when the failures `seen` have been listed, if it has
an answer. -/
def Ends (seen : List Failure) (t : Traced β) (P : List Failure → β → Prop) : Prop :=
  ∀ b, t.answer = .ok b → P (seen ++ t.failures) b

namespace Ends

variable {seen : List Failure} {P : List Failure → β → Prop}

theorem pure {b : β} (h : P seen b) : Ends seen (Pure.pure b) P := by
  intro b' hb'
  cases hb'
  show P (seen ++ []) b
  rw [List.append_nil]
  exact h

theorem lift (e : Except Fault β) (h : ∀ b, P seen b) : Ends seen (Traced.lift e) P := by
  intro b hb
  cases e with
  | error f => cases hb
  | ok b' =>
    show P (seen ++ []) b
    rw [List.append_nil]
    exact h b

theorem log {P : List Failure → Unit → Prop} (f : Failure) (h : P (seen ++ [f]) ()) :
    Ends seen (Traced.log f) P := fun _ _ => h

theorem hush (x : Traced β) : Ends seen x.hush (fun fs _ => fs = seen) :=
  fun _ _ => List.append_nil seen

theorem bind {x : Traced β} {k : β → Traced γ} {R : List Failure → γ → Prop} (hx : Ends seen x P)
    (hk : ∀ fs b, P (seen ++ fs) b → Ends (seen ++ fs) (k b) R) : Ends seen (x >>= k) R := by
  intro r hr
  cases hanswer : x.answer with
  | error e =>
    rw [Traced.bind_error hanswer] at hr
    cases hr
  | ok b =>
    rw [Traced.bind_ok hanswer] at hr ⊢
    show R (seen ++ (x.failures ++ (k b).failures)) r
    rw [← List.append_assoc]
    exact hk x.failures b (hx b hanswer) r hr

theorem weaken {t : Traced β} {R : List Failure → β → Prop} (h : Ends seen t P)
    (hPR : ∀ fs b, P fs b → R fs b) : Ends seen t R := fun b hb => hPR _ b (h b hb)

end Ends

/-! ## The evaluation -/

/-- An answer at an offset, with all failures listed up to it. A match accounts for the attempts up to its
end; a failure accounts for those up to `start`, and lies there or where an item fails. -/
def Result.Charted (start : Nat) (failures : List Failure) : Result → Prop
  | .success _ next => start ≤ next.offset ∧ Accounted failures next.offset
  | .failure offset => Accounted failures start ∧ (offset = start ∨ .item offset ∈ failures)

/-- The same for the items of a sequence: they fail where an item fails, which accounts for everything. -/
def ItemsResult.Charted (start : Nat) (failures : List Failure) : ItemsResult → Prop
  | .success _ _ next => start ≤ next.offset ∧ Accounted failures next.offset
  | .failure offset => Accounted failures 0 ∧ .item offset ∈ failures

/-- A step charts its answers, wherever it starts. -/
def Charts (step : Cursor → Traced Result) : Prop :=
  ∀ c seen, Accounted seen c.offset → Ends seen (step c) (Result.Charted c.offset)

theorem Cursor.le_offset_advance (c : Cursor) (n : Nat) : c.offset ≤ (c.advance n).offset := by
  have hle := c.offset_le
  rw [Cursor.offset_advance]
  omega

theorem traceTerminal_charted {c : Cursor} {seen : List Failure} (hseen : Accounted seen c.offset)
    (label : Bytes) (taken : Option Nat) :
    Ends seen (traceTerminal c label taken) (Result.Charted c.offset) := by
  cases taken with
  | some n =>
    have hle := Cursor.le_offset_advance c n
    exact Ends.pure ⟨hle, hseen.mono hle⟩
  | none =>
    have hattempt : Ends seen (Traced.log (.attempt c.offset label)) (fun fs _ => Accounted fs c.offset) :=
      Ends.log _ (hseen.attempt label)
    exact hattempt.bind fun fs _ hfs => Ends.pure ⟨hfs, .inl rfl⟩

section Repetition

variable {step : Cursor → Traced Result} (hstep : Charts step)

include hstep

theorem traceCollect_charted (fuel : Nat) (collected : List (Spanned Value)) {c : Cursor}
    {seen : List Failure} (hseen : Accounted seen c.offset) :
    Ends seen (traceCollect step fuel collected c)
      (fun fs x => c.offset ≤ x.2.offset ∧ Accounted fs x.2.offset) := by
  induction fuel generalizing collected c seen with
  | zero => exact Ends.pure ⟨Nat.le_refl _, hseen⟩
  | succ fuel ih =>
    unfold traceCollect
    refine (hstep c seen hseen).bind fun fs r hr => ?_
    cases r with
    | failure offset => exact Ends.pure ⟨Nat.le_refl _, hr.1⟩
    | success tree next =>
      obtain ⟨hle, hfs⟩ := hr
      simp only
      split
      · next heq =>
        -- a match that takes nothing is dropped, but what failed in it stays listed
        rw [heq] at hfs
        exact Ends.pure ⟨Nat.le_refl _, hfs⟩
      · refine (ih (tree :: collected) hfs).weaken fun fs' x hx => ?_
        exact ⟨Nat.le_trans hle hx.1, hx.2⟩

theorem traceRepeated_charted (reach : Nat) (repetition : Repetition) :
    Charts (traceRepeated reach repetition step) := by
  intro c seen hseen
  cases repetition with
  | once => exact hstep c seen hseen
  | optional =>
    refine (hstep c seen hseen).bind fun fs r hr => ?_
    cases r with
    | failure offset => exact Ends.pure ⟨Nat.le_refl _, hr.1⟩
    | success tree next => exact Ends.pure hr
  | star =>
    refine (traceCollect_charted hstep (reach + 1) [] hseen).bind fun fs x hx => ?_
    exact Ends.pure hx
  | plus =>
    refine (hstep c seen hseen).bind fun fs r hr => ?_
    cases r with
    | failure offset => exact Ends.pure ⟨hr.1, .inl rfl⟩
    | success tree next =>
      obtain ⟨hle, hfs⟩ := hr
      refine (traceCollect_charted hstep (reach + 1) [tree] hfs).bind fun fs' x hx => ?_
      exact Ends.pure ⟨Nat.le_trans hle hx.1, hx.2⟩

end Repetition

/-- A test takes nothing and hides what fails in it. -/
theorem traceLookaround_charted (lookahead : Lookahead) (asCondition : Bool)
    {step : Cursor → Traced Result} (hstep : Charts step) :
    Charts (traceLookaround lookahead asCondition step) := by
  intro c seen hseen
  unfold traceLookaround
  have hstays : ∀ tree, Result.Charted c.offset seen (.success tree c) :=
    fun tree => ⟨Nat.le_refl _, hseen⟩
  have hfails : Result.Charted c.offset seen (.failure c.offset) := ⟨hseen, .inl rfl⟩
  cases lookahead with
  | none =>
    refine Ends.bind (x := step c) (hstep c seen hseen) fun fs r hr => ?_
    cases r with
    | failure offset => exact Ends.pure ⟨hr.1, .inl rfl⟩
    | success tree next => exact Ends.pure hr
  | ahead =>
    -- a hushed step adds no failures
    refine Ends.bind (x := (step c).hush) (Ends.hush _) fun fs r hfs => ?_
    rw [hfs]
    apply Ends.pure
    cases r with
    | failure offset => exact hfails
    | success tree next =>
      unfold Lookahead.judge
      simp only
      split
      · exact hfails
      · exact hstays tree
  | notAhead =>
    refine Ends.bind (x := (step c).hush) (Ends.hush _) fun fs r hfs => ?_
    rw [hfs]
    apply Ends.pure
    cases r with
    | failure offset => exact hstays _
    | success tree next =>
      unfold Lookahead.judge
      simp only
      split
      · exact hstays _
      · exact hfails

section Expressions

variable {s : Basis α} {call : Nat → Cursor → Traced Result} (hcall : ∀ i, Charts (call i))

include hcall

theorem traceRuleCall_charted (decorated : Bool) (target : Option Nat) :
    Charts (traceRuleCall s call decorated target) := by
  intro c seen hseen
  unfold traceRuleCall
  cases target with
  | none => exact fun r hr => by cases hr
  | some i =>
    refine (hcall i c seen hseen).bind fun fs r hr => ?_
    cases r with
    | failure offset => exact Ends.pure hr
    | success tree next =>
      simp only
      cases s.grammar.rules[i]? with
      | none => exact fun r hr => by cases hr
      | some rule =>
        simp only
        split
        · exact Ends.pure hr
        · exact Ends.pure hr

mutual

theorem traceBody_charted (frame : Frame) :
    ∀ body : Body α, Charts (traceBody s call frame body)
  | .code host => fun c seen hseen => by
    unfold traceBody
    refine (Ends.lift (P := fun fs _ => fs = seen) _ fun _ => rfl).bind fun fs v hfs => ?_
    rw [hfs]
    exact Ends.pure ⟨Nat.le_refl _, hseen⟩
  | .call _ decorated target => fun c seen hseen => by
    unfold traceBody
    exact traceRuleCall_charted hcall decorated target c seen hseen
  | .group alternatives => fun c seen hseen => by
    unfold traceBody
    exact traceExpr_charted alternatives none c seen hseen (fun _ h => by cases h)
  | .literal spelling caseless braceSensitive => fun c seen hseen => by
    unfold traceBody
    exact traceTerminal_charted hseen _ _
  | .interpolated segments caseless => fun c seen hseen => by
    unfold traceBody
    refine (Ends.lift (P := fun fs _ => fs = seen) _ fun _ => rfl).bind fun fs text hfs => ?_
    rw [hfs]
    exact traceTerminal_charted hseen _ _
  | .cls cls => fun c seen hseen => by
    unfold traceBody
    exact traceTerminal_charted hseen _ _
  | .any => fun c seen hseen => by
    unfold traceBody
    exact traceTerminal_charted hseen _ _
termination_by structural body => body

/-- The alternatives that were tried before failed at the cursor or where an item fails. -/
theorem traceExpr_charted :
    ∀ (alternatives : List (Sequence α (Body α))) (earliest : Option Nat) (c : Cursor)
      (seen : List Failure), Accounted seen c.offset →
      (∀ offset, earliest = some offset → offset = c.offset ∨ .item offset ∈ seen) →
      Ends seen (traceExpr s call alternatives earliest c) (Result.Charted c.offset)
  | [], earliest, c, seen, hseen, hearliest => by
    unfold traceExpr
    refine Ends.pure ⟨hseen, ?_⟩
    cases earliest with
    | none => exact .inl rfl
    | some offset => exact hearliest offset rfl
  | seq :: rest, earliest, c, seen, hseen, hearliest => by
    unfold traceExpr
    refine (traceSequence_charted seq c seen hseen).bind fun fs r hr => ?_
    cases r with
    | success tree next => exact Ends.pure hr
    | failure offset =>
      refine traceExpr_charted rest _ c _ hr.1 fun offset' hoffset' => ?_
      cases earliest with
      | none =>
        cases hoffset'
        exact hr.2
      | some before =>
        -- the earlier of the two offsets is one of them
        have hbefore := (hearliest before rfl).imp id (List.mem_append_left fs)
        have hmin : min before offset = offset' := Option.some.inj hoffset'
        rcases Nat.le_total before offset with hle | hle
        · rw [Nat.min_eq_left hle] at hmin
          exact hmin ▸ hbefore
        · rw [Nat.min_eq_right hle] at hmin
          exact hmin ▸ hr.2
termination_by structural alternatives => alternatives

theorem traceSequence_charted :
    ∀ seq : Sequence α (Body α), Charts (traceSequence s call seq)
  | ⟨items, action, layout, _⟩ => fun c seen hseen => by
    unfold traceSequence
    refine (traceItems_charted layout c.offset items _ default c seen hseen).bind fun fs r hr => ?_
    cases r with
    | failure offset =>
      -- a sequence fails where one of its items does
      exact Ends.pure ⟨hr.1.mono (Nat.zero_le _), .inr hr.2⟩
    | success slots last next =>
      refine (Ends.lift (P := fun fs' _ => fs' = seen ++ fs) _ fun _ => rfl).bind fun fs' v hfs' => ?_
      rw [hfs']
      exact Ends.pure hr
termination_by structural seq => seq

theorem traceItems_charted (layout : List Bytes) (start : Nat) :
    ∀ (items : List (Item (Body α))) (slots : List (Spanned Value)) (last : Spanned Value) (c : Cursor)
      (seen : List Failure), Accounted seen c.offset →
      Ends seen (traceItems s call layout start items slots last c) (ItemsResult.Charted c.offset)
  | [], slots, last, c, seen, hseen => by
    unfold traceItems
    exact Ends.pure ⟨Nat.le_refl _, hseen⟩
  | item :: rest, slots, _, c, seen, hseen => by
    unfold traceItems
    refine (traceItem_charted ⟨slots, layout, start⟩ item c seen hseen).bind fun fs r hr => ?_
    cases r with
    | failure offset =>
      -- the item is listed behind the attempts that it accounts for
      have hitem : Ends (seen ++ fs) (Traced.log (.item c.offset))
          (fun fs' _ => Accounted fs' 0 ∧ .item c.offset ∈ fs') :=
        Ends.log _ ⟨hr.1.item, by simp⟩
      exact hitem.bind fun fs' _ hfs' => Ends.pure hfs'
    | success tree next =>
      obtain ⟨hle, hfs⟩ := hr
      refine (traceItems_charted layout start rest _ tree next _ hfs).weaken fun fs' r' hr' => ?_
      cases r' with
      | failure offset => exact hr'
      | success slots' last next' => exact ⟨Nat.le_trans hle hr'.1, hr'.2⟩
termination_by structural items => items

theorem traceItem_charted (frame : Frame) :
    ∀ item : Item (Body α), Charts (traceItem s call frame item)
  | ⟨_, _, lookahead, body, repetition, _, _⟩ => by
    unfold traceItem
    exact traceLookaround_charted lookahead _
      (traceRepeated_charted (traceBody_charted frame body) s.reach repetition)
termination_by structural item => item

end

theorem traceRule_charted (rule : Rule α) :
    Charts (traceRule s call rule) := by
  intro c seen hseen
  unfold traceRule
  cases rule.matcher with
  | none =>
    have hbody := traceExpr_charted (s := s) hcall rule.body none c seen hseen (fun _ h => by cases h)
    refine hbody.bind fun fs r hr => ?_
    cases r with
    | failure offset => exact Ends.pure hr
    | success tree next =>
      simp only
      split
      · exact Ends.pure hr
      · exact Ends.pure hr
  | some i =>
    simp only
    cases s.grammar.matchers[i]? with
    | none => exact fun r hr => by cases hr
    | some matcher =>
      refine (Ends.lift (P := fun fs _ => fs = seen) _ fun _ => rfl).bind fun fs answer hfs => ?_
      rw [hfs]
      cases answer with
      | failure offset =>
        have hattempt : Ends seen (Traced.log (.attempt c.offset rule.name))
            (fun fs _ => Accounted fs c.offset) := Ends.log _ (hseen.attempt rule.name)
        exact hattempt.bind fun fs' _ hfs' => Ends.pure ⟨hfs', .inl rfl⟩
      | success v taken =>
        have hle := Cursor.le_offset_advance c taken
        exact Ends.pure ⟨hle, hseen.mono hle⟩

end Expressions

/-- Every evaluation of a rule charts its answers, by induction on the depth. -/
theorem traceCall_charted (s : Basis α) (depth index : Nat) : Charts (traceCall s depth index) := by
  induction depth generalizing index with
  | zero =>
    intro c seen hseen r hr
    cases hrule : s.grammar.rules[index]? with
    | none =>
      rw [traceCall_none hrule] at hr
      cases hr
    | some rule =>
      rw [traceCall_zero hrule] at hr
      cases hr
  | succ depth ih =>
    intro c seen hseen
    cases hrule : s.grammar.rules[index]? with
    | none =>
      rw [traceCall_none hrule]
      exact fun r hr => by cases hr
    | some rule =>
      rw [traceCall_succ hrule]
      exact traceRule_charted ih rule c seen hseen

/-! ## Reports -/

variable {g : Grammar α} {client : Client α σ} {index : Nat} {input : Bytes} {env : Env σ}

/-- **The reported offset is at most that of the furthest item that fails.** It is that offset exactly if the
start rule fails there, or some attempt does. A predicate that fails in an alternative that is given up need
not be either, so the furthest failing item may go unreported. -/
theorem Parser.parse_offset_furthest (hpure : client.Pure input) (p : Parser) {error : SyntaxError}
    (h : (Parser.parse p g client index input env).1 = .ok (.failure error)) :
    ∃ (failures : List Failure) (offset : Nat),
      (parseBasis g client input env).Settles index (Cursor.ofText input 0)
        ⟨failures, .ok (.failure offset)⟩ ∧
      (env.settings.memoize = false →
        traceCall (parseBasis g client input env) env.settings.maxDepth index (Cursor.ofText input 0) =
          ⟨failures, .ok (.failure offset)⟩) ∧
      error.offset ≤ furthestItem failures ∧
      (error.offset = furthestItem failures ↔
        offset = furthestItem failures ∨
          ∃ label, .attempt (furthestItem failures) label ∈ failures) := by
  obtain ⟨failures, offset, trail, ⟨n, hsettles⟩, hoff, hsums, hoffset, _⟩ := parse_failure hpure p h
  have hcharted : Result.Charted 0 failures (.failure offset) := by
    have hends := traceCall_charted (parseBasis g client input env) n index (Cursor.ofText input 0) []
      (Accounted.nil _)
    rw [hsettles n (Nat.le_refl n)] at hends
    exact hends _ rfl
  obtain ⟨haccounted, hstart⟩ := hcharted
  -- neither part of the report lies beyond the furthest failing item
  have hoffset_le : offset ≤ furthestItem failures := by
    rcases hstart with hzero | hitem
    · omega
    · exact le_furthestItem hitem
  have hfurthest_le : trail.furthest ≤ furthestItem failures := by
    rcases hsums.attained with hzero | ⟨label, hmem⟩
    · omega
    · rcases haccounted _ _ hmem with hle | hle
      · omega
      · exact hle
  refine ⟨failures, offset, ⟨n, hsettles⟩, hoff, by omega, fun heq => ?_, fun hreached => ?_⟩
  · by_cases hanswer : offset = furthestItem failures
    · exact .inl hanswer
    · -- then the report comes from the trail
      have hattempt : trail.furthest = furthestItem failures := by omega
      rcases hsums.attained with hzero | ⟨label, hmem⟩
      · omega
      · exact .inr ⟨label, hattempt ▸ hmem⟩
  · rcases hreached with hanswer | ⟨label, hmem⟩
    · omega
    · have hle := hsums.le_furthest hmem
      omega

/-- `S <- 'a' !'b' / 'z'`. The predicate fails behind the place at which the second alternative does. -/
def predicateChoice : Grammar Unit where
  rules :=
    [{ name := Bytes.ascii "S"
       body :=
        [{ items := [{ body := .literal (Bytes.ascii "a") false true },
            { lookahead := .notAhead, body := .literal (Bytes.ascii "b") false true }] },
         { items := [{ body := .literal (Bytes.ascii "z") false true }] }] }]

/-- On `ab` the item `!'b'` fails at offset 1, and the error is reported at offset 0. -/
theorem predicateChoice_reported_early :
    (Parser.parse {} predicateChoice matchedText 0 (Bytes.ascii "ab") ((Env.fresh ()).memoizing false)).1 =
        .ok (.failure ⟨0, ⟨1, 1⟩, [Bytes.ascii "\"z\""]⟩) ∧
      furthestItem (traceCall
        (parseBasis predicateChoice matchedText (Bytes.ascii "ab") ((Env.fresh ()).memoizing false))
        1024 0 (Cursor.ofText (Bytes.ascii "ab") 0)).failures = 1 := by
  constructor
  · cbv
  · cbv

theorem parse_offset_furthest_predicateChoice :
    matchedText.Pure (Bytes.ascii "ab") ∧
      ∃ failures, furthestItem failures = 1 ∧ ∀ label, .attempt 1 label ∉ failures := by
  have hparse : (Parser.parse {} predicateChoice matchedText 0 (Bytes.ascii "ab")
      ((Env.fresh ()).memoizing false)).1 = .ok (.failure ⟨0, ⟨1, 1⟩, [Bytes.ascii "\"z\""]⟩) := by
    cbv
  obtain ⟨failures, offset, _, htrace, _, hiff⟩ :=
    Parser.parse_offset_furthest (matchedText_pure _) {} hparse
  have hfurthest : furthestItem failures = 1 := by
    rw [← congrArg (fun t => furthestItem t.failures) (htrace rfl)]
    cbv
  rw [hfurthest] at hiff
  refine ⟨matchedText_pure _, failures, hfurthest, fun label hmem => ?_⟩
  exact absurd (hiff.mpr (.inr ⟨label, hmem⟩)) (Nat.zero_ne_one)

end Packrat
