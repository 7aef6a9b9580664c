import Packrat.Proofs.Encodings
import Packrat.Proofs.Outcome
import Packrat.Proofs.Recognition
import Packrat.Proofs.Tokens

/-!
# `Packrat.Proofs.Splitting` — the texts that patterns take

What a pattern takes in front of a rest is made of what its parts take. Read in this direction, an ordered choice is
a union and a greedy repetition any list: every text that a grammar takes is one of its language in the usual sense.

## Contents
- **Lengths.** A pattern takes no more than there is.
- **Splitting.** `Reads`, with an inversion for each pattern.
- **Terminals.** What classes and literals take, rune by rune.
- **Parses.** A parse that yields a tree takes a text by its start rule.
-/

namespace Packrat

variable {α σ : Type} {rules : List Pattern} {p q : Pattern} {t u rest : Bytes} {n : Nat}

/-! ## Lengths -/

/-- A pattern takes no more than there is. -/
theorem Matches.le_length (h : Matches rules p t (some n)) : n ≤ t.length := by
  generalize ha : some n = a at h
  induction h generalizing n with
  | literal => exact Terminal.le_length_literal ha.symm
  | @cls cls t =>
    rw [eq_comm, Option.map_eq_some_iff] at ha
    obtain ⟨⟨r, m⟩, hclass, rfl⟩ := ha
    exact Terminal.le_length_class hclass
  | @any t =>
    rw [eq_comm, Option.map_eq_some_iff] at ha
    obtain ⟨⟨r, m⟩, hany, rfl⟩ := ha
    exact Terminal.le_length_any hany
  | seqNext _ _ ihp ihq =>
    cases ha
    have hp := ihp rfl
    have hq := ihq rfl
    rw [List.length_drop] at hq
    omega
  | starNext _ _ _ ihp ihrest =>
    cases ha
    have hp := ihp rfl
    have hrest := ihrest rfl
    rw [List.length_drop] at hrest
    omega
  | plusNext _ _ ihp ihrest =>
    cases ha
    have hp := ihp rfl
    have hrest := ihrest rfl
    rw [List.length_drop] at hrest
    omega
  | call _ _ ih => exact ih ha
  | choiceFirst _ ih => exact ih ha
  | choiceNext _ _ _ ih => exact ih ha
  | optionalSome _ ih => exact ih ha
  | _ => cases ha <;> exact Nat.zero_le _

/-! ## Splitting -/

/-- A pattern takes a text in front of a rest. -/
def Reads (rules : List Pattern) (p : Pattern) (u rest : Bytes) : Prop := Matches rules p (u ++ rest) (some u.length)

/-- What a pattern takes stands in front of what remains. -/
theorem Matches.reads (h : Matches rules p t (some n)) : Reads rules p (t.take n) (t.drop n) := by
  unfold Reads
  rw [List.take_append_drop, List.length_take, Nat.min_eq_left h.le_length]
  exact h

namespace Reads

theorem empty (h : Reads rules .empty u rest) : u = [] := by
  unfold Reads at h
  generalize hn : u.length = n at h
  cases h
  exact List.length_eq_zero_iff.mp hn

theorem fail (h : Reads rules .fail u rest) : False := by
  unfold Reads at h
  cases h

theorem call {i : Nat} (h : Reads rules (.call (some i)) u rest) (hrule : rules[i]? = some p) : Reads rules p u rest := by
  unfold Reads at h
  cases h with
  | call hrule' hp =>
    cases hrule.symm.trans hrule'
    exact hp

/-- What a sequence takes is what its parts take, one after the other. -/
theorem seq (h : Reads rules (.seq p q) u rest) :
    ∃ v w, u = v ++ w ∧ Reads rules p v (w ++ rest) ∧ Reads rules q w rest := by
  unfold Reads at h
  generalize hn : u.length = n at h
  cases h with
  | @seqNext _ _ _ m k hp hq =>
    have hsplit : u = u.take m ++ u.drop m := (List.take_append_drop m u).symm
    have hm : m ≤ u.length := by omega
    have hlength : (u.take m).length = m := List.length_take_of_le hm
    refine ⟨u.take m, u.drop m, hsplit, ?_, ?_⟩
    · unfold Reads
      rw [← List.append_assoc, ← hsplit, hlength]
      exact hp
    · unfold Reads
      rw [List.drop_append_of_le_length hm] at hq
      rw [List.length_drop, hn, Nat.add_sub_cancel_left]
      exact hq

theorem choice (h : Reads rules (.choice p q) u rest) : Reads rules p u rest ∨ Reads rules q u rest := by
  unfold Reads at h
  cases h with
  | choiceFirst hp => exact .inl hp
  | choiceNext _ hq => exact .inr hq

theorem optional (h : Reads rules (.optional p) u rest) : u = [] ∨ Reads rules p u rest := by
  unfold Reads at h
  generalize hn : u.length = n at h
  cases h with
  | optionalSome hp =>
    subst hn
    exact .inr hp
  | optionalNone _ => exact .inl (List.length_eq_zero_iff.mp hn)

/-- What a repetition takes are texts that its body takes. -/
theorem star (h : Reads rules (.star p) u rest) :
    ∃ us : List Bytes, u = us.flatten ∧ ∀ v ∈ us, ∃ more, Reads rules p v more := by
  have hmany : ∀ {q t a}, Matches rules q t a → ∀ n, q = .star p → a = some n →
      ∃ us : List Bytes, t.take n = us.flatten ∧ ∀ v ∈ us, ∃ more, Reads rules p v more := by
    intro q t a hq
    induction hq with
    | starStop _ =>
      rintro n _ ⟨⟩
      exact ⟨[], rfl, fun v hv => absurd hv List.not_mem_nil⟩
    | starIdle _ =>
      rintro n _ ⟨⟩
      exact ⟨[], rfl, fun v hv => absurd hv List.not_mem_nil⟩
    | @starNext _ t m k hp _ _ _ ih =>
      rintro n ⟨⟩ ⟨⟩
      obtain ⟨us, hus, hall⟩ := ih k rfl rfl
      refine ⟨t.take m :: us, ?_, ?_⟩
      · rw [List.flatten_cons, ← hus, List.take_add]
      · rw [List.forall_mem_cons]
        exact ⟨⟨t.drop m, hp.reads⟩, hall⟩
    | _ => exact fun _ hq _ => nomatch hq
  obtain ⟨us, hus, hall⟩ := hmany h _ rfl rfl
  rw [List.take_left] at hus
  exact ⟨us, hus, hall⟩

theorem plus (h : Reads rules (.plus p) u rest) :
    ∃ v w, u = v ++ w ∧ Reads rules p v (w ++ rest) ∧ Reads rules (.star p) w rest := by
  unfold Reads at h
  generalize hn : u.length = n at h
  cases h with
  | plusNext hp hrest =>
    refine seq ?_
    unfold Reads
    rw [hn]
    exact .seqNext hp hrest

theorem notAhead (h : Reads rules (.notAhead p) u rest) : u = [] ∧ Matches rules p rest none := by
  unfold Reads at h
  generalize hn : u.length = n at h
  cases h with
  | notAheadNone hp =>
    have hnil := List.length_eq_zero_iff.mp hn
    rw [hnil] at hp
    exact ⟨hnil, hp⟩

end Reads

/-! ## Terminals -/

namespace Terminal

/-- Runes with case are matched where their encodings stand. -/
theorem of_runes? {runes : List Rune} (h : runes? false runes t = some n) :
    t.take n = runes.flatMap Utf8.encode := by
  obtain ⟨rs, -, hagree, hfront, rfl⟩ := runes?_eq_some_iff.mp h
  rw [forall₂_agree_exact.mp hagree] at hfront ⊢
  exact (List.prefix_iff_eq_take.mp hfront).symm

end Terminal

namespace CharClass

/-- Whether a class holds no runes but some ASCII bytes. -/
def within (k : CharClass) (set : Bytes) : Bool :=
  !k.negated && !k.caseless && k.ranges.all (·.last < 0x80) &&
    (List.range 0x80).all fun i => !k.contains i || set.contains i.toUInt8

/-- The runes of a class of ASCII bytes are encoded by one of them. -/
theorem encode_of_within {k : CharClass} {set : Bytes} {r : Rune} (hk : k.within set = true)
    (hr : k.contains r = true) : ∃ b ∈ set, Utf8.encode r = [b] := by
  simp only [within, Bool.and_eq_true, Bool.not_eq_true'] at hk
  obtain ⟨⟨⟨hnegated, hcaseless⟩, hranges⟩, hset⟩ := hk
  have hcovers : k.covers r = true := by
    rw [contains, hnegated, hcaseless, Bool.false_and, Bool.or_false, Bool.bne_false] at hr
    exact hr
  obtain ⟨range, hmem, hrange⟩ := List.any_eq_true.mp hcovers
  have hlast : range.last < 0x80 := of_decide_eq_true (List.all_eq_true.mp hranges range hmem)
  have hsmall : r < 0x80 := by
    rw [RuneRange.contains, Bool.and_eq_true, decide_eq_true_eq, decide_eq_true_eq] at hrange
    exact Nat.lt_of_le_of_lt hrange.2 hlast
  have hbyte := List.all_eq_true.mp hset r (List.mem_range.mpr hsmall)
  rw [hr] at hbyte
  refine ⟨r.toUInt8, List.contains_iff_mem.mp hbyte, ?_⟩
  unfold Utf8.encode
  rw [if_pos hsmall]

end CharClass

namespace Reads

theorem cls {k : CharClass} (h : Reads rules (.cls k) u rest) :
    ∃ r : Rune, r.isScalar = true ∧ u = Utf8.encode r ∧ k.contains r = true := by
  unfold Reads at h
  generalize ha : some u.length = a at h
  cases h with
  | cls =>
    rw [eq_comm, Option.map_eq_some_iff] at ha
    obtain ⟨⟨r, n⟩, hclass, hn⟩ := ha
    rw [Terminal.class?, Option.filter_eq_some_iff] at hclass
    obtain ⟨hscalar, hfront, hlength⟩ := Terminal.of_rune? hclass.1
    have hu : u <+: u ++ rest := List.prefix_append u rest
    have hsame : u = Utf8.encode r := by
      refine (List.prefix_of_prefix_length_le hu hfront ?_).eq_of_length ?_
      · exact Nat.le_of_eq (hn.symm.trans hlength)
      · exact hn.symm.trans hlength
    exact ⟨r, hscalar, hsame, hclass.2⟩

/-- A literal with case takes the text that it denotes. -/
theorem literal {spelling : Bytes} {braceSensitive : Bool} (h : Reads rules (.literal spelling false braceSensitive) u rest) :
    u = unescape spelling := by
  unfold Reads at h
  generalize ha : some u.length = a at h
  cases h with
  | literal =>
    rw [Terminal.literal?, eq_comm] at ha
    split at ha
    · cases ha
    · have htaken := Terminal.of_runes? ha
      rw [List.take_left, List.flatMap_map] at htaken
      exact htaken

end Reads

/-- Any character fails at the end of a text only. -/
theorem Matches.any_none (h : Matches rules .any t none) : t = [] := by
  generalize ha : none = a at h
  cases h with
  | any =>
    cases t with
    | nil => rfl
    | cons b t => cases ha

/-! ## Parses -/

/-- A parse that yields a tree has taken a text by the pattern of its start rule. -/
theorem parse_reads (p : Parser) {g : Grammar α} (hstatic : g.isStatic = true) {client : Client α σ}
    {index : Nat} {input : Bytes} {env : Env σ} (hempty : ¬g.isEmpty = true) (hparsing : ¬env.parsing = true)
    {x : Spanned Value} (h : (Parser.parse p g client index input env).1 = .ok (.tree x)) :
    ∃ u rest, input = u ++ rest ∧ Reads g.patterns (.call (some index)) u rest := by
  have hstatic' : (parseScene g client input env).grammar.isStatic = true := hstatic
  have hreach : input.length ≤ (parseScene g client input env).reach := Nat.le_refl _
  have hensures : Recognises g.patterns input (callRule (parseScene g client input env) env.settings.maxDepth) :=
    callRule_ensures hreach hstatic' env.settings.maxDepth
  have hempty' : Recalls g.patterns input (⟨(env.reset client input).store, {}⟩ : Progress σ) := by
    intro index' c' r' _ hr'
    rw [Std.HashMap.getElem?_empty] at hr'
    cases hr'
  have hanswer := (hensures false index (Cursor.ofText input 0) rfl _ hempty').2
  rcases hrun : (callRule (parseScene g client input env) env.settings.maxDepth false index
    (Cursor.ofText input 0)).run.run ⟨(env.reset client input).store, {}⟩ with ⟨answer, progress⟩
  rw [hrun] at hanswer
  rw [parse_eq_outcomeOf p hempty hparsing hrun] at h
  cases answer with
  | error f => cases h
  | ok r =>
    cases r with
    | failure offset => cases h
    | success tree next =>
      obtain ⟨-, -, hmatches⟩ := hanswer _ rfl
      exact ⟨_, _, (List.take_append_drop _ input).symm, hmatches.reads⟩

end Packrat
