import Packrat.Proofs.Lockstep
import Packrat.Proofs.Memoization
import Packrat.Proofs.Termination
import Packrat.Watch

/-!
# `Packrat.Proofs.History` — a parse does not depend on what came before

A parser and its environment are used again and again: for parses that match, that fail or that end in a fault,
for calls of single rules, and for position queries. Every use leaves something behind, and a parse starts by
resetting it. Here it is shown that nothing remains by which a parse could tell.

## Contents
- **Forgetful clients.** `Client.Forgets`: after a reset the host program behaves as if it were new.
- **Operations.** `Operation`, what a parser and its environment are used for, done by the evaluator and by the
  machine.
- **Between uses.** `Machine.Stands`: no use leaves a call, a lookahead or a parse in progress.
- **Independence.** `Parser.parse_forgets`.
-/

namespace Packrat

variable {α β σ : Type}

/-! ## Forgetful clients -/

/-- After a reset the host program behaves as if it were new. `Known` holds of the states in which it may be, and
`Same` relates those that a parse cannot tell apart: hooks and actions do the same in them, as far as a parse
sees it. -/
structure Client.Forgets (client : Client α σ) (Known : σ → Prop) (Same : σ → σ → Prop) : Prop where
  reset_known : ∀ {user : σ}, Known user → Known (client.onReset user)
  call_known : ∀ (c : Call) {user : σ}, Known user → Known ((client.onCall c).run.run user).2
  act_known : ∀ (a : α) (ctx : Context) (s : Store σ), Known s.user → Known ((client.act a ctx).run.run s).2.user
  reset_same : ∀ {user user' : σ}, Known user → Known user' → Same (client.onReset user) (client.onReset user')
  call_same : ∀ (c : Call) {user user' : σ}, Same user user' →
    ((client.onCall c).run.run user).1 = ((client.onCall c).run.run user').1 ∧
      Same ((client.onCall c).run.run user).2 ((client.onCall c).run.run user').2
  act_same : ∀ (a : α) (ctx : Context) (s s' : Store σ), ctx.parsing = true → s.locator = s'.locator →
    Same s.user s'.user →
    ((client.act a ctx).run.run s).1 = ((client.act a ctx).run.run s').1 ∧
      ((client.act a ctx).run.run s).2.locator = ((client.act a ctx).run.run s').2.locator ∧
      Same ((client.act a ctx).run.run s).2.user ((client.act a ctx).run.run s').2.user

section Forgets

variable {client : Client α σ} {Known : σ → Prop} {Same : σ → σ → Prop}

/-- Actions that answer without the store, under a hook that does nothing, leave nothing to forget. -/
theorem Client.forgets_of_lift {f : α → Context → Except Fault Value}
    (hact : ∀ a ctx, client.act a ctx = ActionM.lift (f a ctx))
    (hcall : ∀ c, client.onCall c = pure ()) : client.Forgets (fun _ => True) (fun _ _ => True) := by
  refine ⟨fun _ => trivial, fun _ _ _ => trivial, fun _ _ _ _ => trivial, fun _ _ => trivial, ?_, ?_⟩
  · intro c user user' _
    rw [hcall]
    exact ⟨rfl, trivial⟩
  · intro a ctx s s' _ hlocator _
    rw [hact]
    exact ⟨rfl, hlocator, trivial⟩

/-- The watched hook records the call, and asks the hook behind it unless the budget is used up. -/
theorem Client.run_watched (client : Client α σ) (c : Call) (w : Watch) (user : σ) :
    (client.watched.onCall c).run.run (w, user) =
      match w.left with
      | .none => (((client.onCall c).run.run user).1,
          ({ w with calls := c :: w.calls }, ((client.onCall c).run.run user).2))
      | .some 0 => (.error .interrupted, ({ w with calls := c :: w.calls }, user))
      | .some (n + 1) => (((client.onCall c).run.run user).1,
          ({ w with calls := c :: w.calls, left := some n }, ((client.onCall c).run.run user).2)) := by
  obtain ⟨resets, calls, budget, left⟩ := w
  cases left with
  | none => rfl
  | some n =>
    cases n with
    | zero => rfl
    | succ n => rfl

/-- A watch with a fixed budget is forgotten, too, but for its calls since the reset. -/
theorem Client.Forgets.watched (h : client.Forgets Known Same) (budget : Option Nat) :
    client.watched.Forgets (fun s => s.1.budget = budget ∧ Known s.2)
      (fun s s' => s.1.calls = s'.1.calls ∧ s.1.left = s'.1.left ∧ Same s.2 s'.2) := by
  refine ⟨?_, ?_, ?_, ?_, ?_, ?_⟩
  · rintro ⟨w, user⟩ ⟨hbudget, hknown⟩
    exact ⟨hbudget, h.reset_known hknown⟩
  · rintro c ⟨w, user⟩ ⟨hbudget, hknown⟩
    rw [Client.run_watched]
    cases w.left with
    | none => exact ⟨hbudget, h.call_known c hknown⟩
    | some n =>
      cases n with
      | zero => exact ⟨hbudget, hknown⟩
      | succ n => exact ⟨hbudget, h.call_known c hknown⟩
  · rintro a ctx ⟨locator, w, user⟩ ⟨hbudget, hknown⟩
    exact ⟨hbudget, h.act_known a ctx ⟨locator, user⟩ hknown⟩
  · rintro ⟨w, user⟩ ⟨w', user'⟩ ⟨hbudget, hknown⟩ ⟨hbudget', hknown'⟩
    exact ⟨rfl, hbudget.trans hbudget'.symm, h.reset_same hknown hknown'⟩
  · rintro c ⟨w, user⟩ ⟨w', user'⟩ ⟨hcalls, hleft, hsame⟩
    obtain ⟨hanswer, hsame'⟩ := h.call_same c hsame
    -- both watches record the call, and have the same budget left for it
    have hrecord : c :: w.calls = c :: w'.calls := congrArg (c :: ·) hcalls
    have hleft' : w.left = w'.left := hleft
    rw [Client.run_watched, Client.run_watched, ← hleft']
    cases hn : w.left with
    | none => exact ⟨hanswer, hrecord, rfl, hsame'⟩
    | some n =>
      cases n with
      | zero => exact ⟨rfl, hrecord, rfl, hsame⟩
      | succ n => exact ⟨hanswer, hrecord, rfl, hsame'⟩
  · rintro a ctx ⟨locator, w, user⟩ ⟨locator', w', user'⟩ hparsing hlocator ⟨hcalls, hleft, hsame⟩
    obtain ⟨hanswer, hlocator', hsame'⟩ :=
      h.act_same a ctx ⟨locator, user⟩ ⟨locator', user'⟩ hparsing hlocator hsame
    exact ⟨hanswer, hlocator', hcalls, hleft, hsame'⟩

/-- Every evaluation keeps the host program in a state in which it may be. -/
theorem Client.Forgets.couples_known (h : client.Forgets Known Same) {scene : Scene α σ}
    (hclient : scene.client = client) :
    Couples scene scene (fun s s' => s = s' ∧ Known s.user) := by
  subst hclient
  refine ⟨rfl, ?_, ?_⟩
  · rintro c s s' ⟨rfl, hknown⟩
    exact ⟨rfl, rfl, h.call_known c hknown⟩
  · rintro a args names start stop s s' ⟨rfl, hknown⟩
    exact ⟨rfl, rfl, h.act_known a _ s hknown⟩

/-- In the course of a parse, an evaluation cannot tell apart states that are the same. -/
theorem Client.Forgets.couples_same (h : client.Forgets Known Same) {scene : Scene α σ}
    (hclient : scene.client = client) (hparsing : scene.parsing = true) :
    Couples scene scene (fun s s' => s.locator = s'.locator ∧ Same s.user s'.user) := by
  subst hclient
  refine ⟨rfl, ?_, ?_⟩
  · rintro c s s' ⟨hlocator, hsame⟩
    obtain ⟨hanswer, hsame'⟩ := h.call_same c hsame
    exact ⟨hanswer, hlocator, hsame'⟩
  · rintro a args names start stop s s' ⟨hlocator, hsame⟩
    exact h.act_same a _ s s' hparsing hlocator hsame

end Forgets

/-! ## Operations -/

/-- What a parser and its environment are used for. -/
inductive Operation (α : Type) where
  /-- A parse of a text. -/
  | parse (index : Nat) (input : Bytes)
  /-- A call of a rule at a cursor, outside of a parse. -/
  | call (index : Nat) (c : Cursor)
  /-- A query for the position of an offset. -/
  | locate (offset : Nat)
  /-- A parse with another grammar and a new parser, in the same environment. -/
  | other (g : Grammar α) (index : Nat) (input : Bytes)

namespace Operation

/-- Uses a parser and its environment, whatever the answer. -/
def perform (g : Grammar α) (client : Client α σ) : Operation α → Parser × Env σ → Parser × Env σ
  | .parse index input, (p, env) =>
    let (_, env, p) := Parser.parse p g client index input env
    (p, env)
  | .call index c, (p, env) =>
    let (_, env, p) := Parser.callRule p g client index c env
    (p, env)
  | .locate offset, (p, env) => (p, (env.positionAt offset).2)
  | .other g' index input, (p, env) => (p, (Packrat.parse g' client index input env).2)

/-- Uses a machine, whatever the answer. -/
def run (g : Grammar α) (client : Client α σ) : Operation α → Machine σ → Option (Machine σ)
  | .parse index input, m => do
    let (_, m) ← (runParse g client index input).run.run m
    return m
  | .call index c, m => do
    let (_, m) ← (runCall g client index c).run.run m
    return m
  | .locate offset, m => some { m with env := (m.env.positionAt offset).2 }
  | .other g' index input, m => do
    let (_, m') ← (runParse g' client index input).run.run (Machine.fresh m.env)
    return { m with env := m'.env }

/-- Uses a parser and its environment again and again. -/
def performAll (g : Grammar α) (client : Client α σ) (history : List (Operation α)) (s : Parser × Env σ) :
    Parser × Env σ :=
  history.foldl (fun s op => op.perform g client s) s

/-- Uses a machine again and again. -/
def runAll (g : Grammar α) (client : Client α σ) (history : List (Operation α)) (m : Machine σ) :
    Option (Machine σ) :=
  history.foldlM (fun m op => op.run g client m) m

end Operation

/-! ## Between uses -/

/-- A machine stands where a parser and its environment stand between two uses: nothing is in progress. -/
structure Machine.Stands (m : Machine σ) (s : Parser × Env σ) : Prop where
  env : m.env = s.2
  input : m.input = s.1.input
  trail : m.trail = s.1.trail
  callDepth : m.callDepth = 0
  lookaheadDepth : m.lookaheadDepth = 0
  memo : Memo.Within s.1.reach s.1.trail.memo

section Uses

variable {g : Grammar α} {client : Client α σ} {env : Env σ}

/-- What a parse leaves: the position of a failure is looked up, and nothing else changes after the evaluation. -/
theorem parse_eq (p : Parser) (client : Client α σ) (index : Nat) (input : Bytes) (hempty : ¬g.isEmpty = true)
    (hparsing : ¬env.parsing = true) :
    ∃ answer progress locator,
      (callRule (parseScene g client input env) env.settings.maxDepth false index
        (Cursor.ofText input 0)).run.run ⟨(env.reset client input).store, {}⟩ = (answer, progress) ∧
      Parser.parse p g client index input env =
        (outcomeOf env.settings answer progress, ⟨env.settings, false, ⟨locator, progress.store.user⟩⟩,
          ⟨input, input.length, progress.trail⟩) := by
  cases hrun : (callRule (parseScene g client input env) env.settings.maxDepth false index
      (Cursor.ofText input 0)).run.run ⟨(env.reset client input).store, {}⟩ with
  | mk answer progress =>
    have heval : Parser.evaluate ⟨input, input.length, {}⟩ g client index (Cursor.ofText input 0)
        (env.reset client input) = (answer, progress) := hrun
    unfold Parser.parse
    rw [if_neg hempty, if_neg hparsing]
    simp only [heval]
    cases answer with
    | error fault => exact ⟨_, _, _, rfl, rfl⟩
    | ok r =>
      cases r with
      | success tree next => exact ⟨_, _, _, rfl, rfl⟩
      | failure offset => exact ⟨_, _, _, rfl, rfl⟩

/-- Behind a parse, no parse is in progress, and the settings are as before. -/
theorem parse_idle (p : Parser) (g : Grammar α) (client : Client α σ) (index : Nat) (input : Bytes)
    (hidle : env.parsing = false) :
    (Parser.parse p g client index input env).2.1.parsing = false ∧
      (Parser.parse p g client index input env).2.1.settings = env.settings := by
  by_cases hempty : g.isEmpty = true
  · rw [parse_of_refused g client index input p (.inl hempty)]
    exact ⟨hidle, rfl⟩
  · obtain ⟨answer, progress, locator, -, hparse⟩ :=
      parse_eq p client index input hempty (Bool.eq_false_iff.mp hidle)
    rw [hparse]
    exact ⟨rfl, rfl⟩

theorem run_parse_stands (index : Nat) (input : Bytes) {m : Machine σ} {s : Parser × Env σ} (h : m.Stands s)
    (hidle : s.2.parsing = false) :
    ∃ m', Operation.run g client (.parse index input) m = some m' ∧
      m'.Stands (Operation.perform g client (.parse index input) s) := by
  obtain ⟨p, env⟩ := s
  have henv : m.env = env := h.env
  subst henv
  show ∃ m', ((runParse g client index input).run.run m >>= fun r => some r.2) = some m' ∧
    m'.Stands ((Parser.parse p g client index input m.env).2.2, (Parser.parse p g client index input m.env).2.1)
  by_cases hempty : g.isEmpty = true
  · rw [runParse_refused g client index input (.inl hempty), parse_of_refused g client index input p (.inl hempty)]
    exact ⟨m, rfl, h⟩
  · have hparsing : ¬m.env.parsing = true := Bool.eq_false_iff.mp hidle
    obtain ⟨peak, hrun, -, hmemo⟩ := runParse_run g client index input hempty hparsing p
    obtain ⟨answer, progress, locator, -, hparse⟩ :=
      parse_eq p client index input hempty hparsing
    rw [hparse] at hrun hmemo ⊢
    rw [hrun]
    exact ⟨_, rfl, rfl, rfl, rfl, rfl, rfl, hmemo⟩

theorem run_call_stands (index : Nat) (c : Cursor) {m : Machine σ} {s : Parser × Env σ} (h : m.Stands s) :
    ∃ m', Operation.run g client (.call index c) m = some m' ∧
      m'.Stands (Operation.perform g client (.call index c) s) := by
  obtain ⟨p, env⟩ := s
  have henv : m.env = env := h.env
  subst henv
  have hserves : m.Serves
      (⟨g, client, m.env.settings, m.env.parsing, p.input, max p.reach c.input.length⟩ : Scene α σ)
      m.env.settings.maxDepth false := by
    refine ⟨rfl, rfl, h.input, ?_, ?_, ?_⟩
    · rw [h.callDepth]
      exact Nat.zero_add _
    · unfold Machine.quiet
      rw [h.lookaheadDepth]
      rfl
    · rw [h.trail]
      intro i offset r hr
      exact (h.memo i offset r hr).mono (Nat.le_max_left _ _) (Nat.le_refl _)
  obtain ⟨peak, hrun, -, hmemo, -⟩ := runCall_follows _ _ false index c (Nat.le_max_right _ _) m hserves
  show ∃ m', ((runCall g client index c).run.run m >>= fun r => some r.2) = some m' ∧
    m'.Stands ((Parser.callRule p g client index c m.env).2.2, (Parser.callRule p g client index c m.env).2.1)
  rw [hrun]
  have hprogress : m.progress = ⟨m.env.store, p.trail⟩ := by
    unfold Machine.progress
    rw [h.trail]
  rw [hprogress] at hmemo ⊢
  exact ⟨_, rfl, rfl, h.input, rfl, h.callDepth, h.lookaheadDepth, hmemo⟩

/-- A parse with another parser leaves this one as it is. -/
theorem run_other_stands (g' : Grammar α) (index : Nat) (input : Bytes) {m : Machine σ} {s : Parser × Env σ}
    (h : m.Stands s) (hidle : s.2.parsing = false) :
    ∃ m', Operation.run g client (.other g' index input) m = some m' ∧
      m'.Stands (Operation.perform g client (.other g' index input) s) := by
  obtain ⟨p, env⟩ := s
  have henv : m.env = env := h.env
  subst henv
  show ∃ m', ((runParse g' client index input).run.run (Machine.fresh m.env) >>= fun r =>
    some { m with env := r.2.env }) = some m' ∧ m'.Stands (p, (Parser.parse {} g' client index input m.env).2.1)
  by_cases hempty : g'.isEmpty = true
  · rw [runParse_refused g' client index input (.inl hempty), parse_of_refused g' client index input {} (.inl hempty)]
    exact ⟨m, rfl, h⟩
  · have hparsing : ¬(Machine.fresh m.env).env.parsing = true := Bool.eq_false_iff.mp hidle
    obtain ⟨peak, hrun, -, -⟩ := runParse_run g' client index input hempty hparsing {}
    rw [hrun]
    exact ⟨_, rfl, rfl, h.input, h.trail, h.callDepth, h.lookaheadDepth, h.memo⟩

/-- No use leaves anything in progress, and the machine does what the evaluator does. -/
theorem Operation.run_stands (g : Grammar α) (client : Client α σ) (op : Operation α) {m : Machine σ}
    {s : Parser × Env σ} (h : m.Stands s) (hidle : s.2.parsing = false) :
    ∃ m', op.run g client m = some m' ∧ m'.Stands (op.perform g client s) := by
  cases op with
  | parse index input => exact run_parse_stands index input h hidle
  | call index c => exact run_call_stands index c h
  | other g' index input => exact run_other_stands g' index input h hidle
  | locate offset =>
    refine ⟨_, rfl, ?_, h.input, h.trail, h.callDepth, h.lookaheadDepth, h.memo⟩
    show (m.env.positionAt offset).2 = (s.2.positionAt offset).2
    rw [h.env]

/-- Every use leaves an environment in which no parse is in progress, with the same settings. -/
theorem Operation.perform_idle (g : Grammar α) (client : Client α σ) (op : Operation α) {s : Parser × Env σ}
    (hidle : s.2.parsing = false) :
    (op.perform g client s).2.parsing = false ∧ (op.perform g client s).2.settings = s.2.settings := by
  cases op with
  | parse index input => exact parse_idle s.1 g client index input hidle
  | call index c => exact ⟨hidle, rfl⟩
  | locate offset => exact ⟨hidle, rfl⟩
  | other g' index input => exact parse_idle {} g' client index input hidle

theorem Operation.performAll_idle (g : Grammar α) (client : Client α σ) (history : List (Operation α))
    {s : Parser × Env σ} (hidle : s.2.parsing = false) :
    (Operation.performAll g client history s).2.parsing = false ∧
      (Operation.performAll g client history s).2.settings = s.2.settings := by
  induction history generalizing s with
  | nil => exact ⟨hidle, rfl⟩
  | cons op rest ih =>
    obtain ⟨hop, hsettings⟩ := op.perform_idle g client hidle
    obtain ⟨hrest, hsettings'⟩ := ih hop
    exact ⟨hrest, hsettings'.trans hsettings⟩

theorem Operation.runAll_stands (g : Grammar α) (client : Client α σ) (history : List (Operation α)) {m : Machine σ}
    {s : Parser × Env σ} (h : m.Stands s) (hidle : s.2.parsing = false) :
    ∃ m', Operation.runAll g client history m = some m' ∧ m'.Stands (Operation.performAll g client history s) := by
  induction history generalizing m s with
  | nil => exact ⟨m, rfl, h⟩
  | cons op rest ih =>
    obtain ⟨m₁, hop, h₁⟩ := op.run_stands g client h hidle
    obtain ⟨m₂, hrest, h₂⟩ := ih h₁ (op.perform_idle g client hidle).1
    refine ⟨m₂, ?_, h₂⟩
    show (op.run g client m >>= fun m => Operation.runAll g client rest m) = some m₂
    rw [hop]
    exact hrest

/-- Without rules there is nothing that could fail. -/
theorem Operation.perform_trail (hempty : g.isEmpty = true) (op : Operation α) (s : Parser × Env σ) :
    (op.perform g client s).1.trail = s.1.trail := by
  cases op with
  | parse index input =>
    show (Parser.parse s.1 g client index input s.2).2.2.trail = _
    rw [parse_of_refused g client index input s.1 (.inl hempty)]
  | call index c =>
    have hnone : g.rules[index]? = none := by
      rw [List.isEmpty_iff.mp hempty]
      rfl
    show (Parser.callRule s.1 g client index c s.2).2.2.trail = _
    unfold Parser.callRule Parser.evaluate Packrat.callRule
    simp only [hnone]
    rfl
  | locate offset => rfl
  | other g' index input => rfl

theorem Operation.performAll_trail (hempty : g.isEmpty = true) (history : List (Operation α))
    (s : Parser × Env σ) : (Operation.performAll g client history s).1.trail = s.1.trail := by
  induction history generalizing s with
  | nil => rfl
  | cons op rest ih => exact (ih _).trans (op.perform_trail hempty s)

section Known

variable {Known : σ → Prop} {Same : σ → σ → Prop} (h : client.Forgets Known Same)

include h

theorem evaluate_known {scene : Scene α σ} (hclient : scene.client = client) (depth : Nat) (quiet : Bool)
    (index : Nat) (c : Cursor) {p : Progress σ} (hknown : Known p.store.user) :
    Known ((callRule scene depth quiet index c).run.run p).2.store.user := by
  obtain ⟨_, t, t', _, hrun, _, _, hend⟩ := callRule_alike ⟨scene.client, scene.settings.maxDepth, scene.parsing⟩
    (h.couples_known hclient) depth quiet index c (s := p.store) ⟨rfl, hknown⟩ p.trail
  rw [hrun]
  exact hend

theorem parse_known (p : Parser) (g : Grammar α) (index : Nat) (input : Bytes) (hidle : env.parsing = false)
    (hknown : Known env.store.user) :
    Known (Parser.parse p g client index input env).2.1.store.user := by
  by_cases hempty : g.isEmpty = true
  · rw [parse_of_refused g client index input p (.inl hempty)]
    exact hknown
  · obtain ⟨answer, progress, locator, hrun, hparse⟩ :=
      parse_eq p client index input hempty (Bool.eq_false_iff.mp hidle)
    rw [hparse]
    have hclient : (parseScene g client input env).client = client := rfl
    have hreset : Known (env.reset client input).store.user := h.reset_known hknown
    have hend := evaluate_known h hclient env.settings.maxDepth false index (Cursor.ofText input 0)
      (p := ⟨(env.reset client input).store, {}⟩) hreset
    rw [hrun] at hend
    exact hend

/-- Every use leaves the host program in a state in which it may be. -/
theorem Operation.perform_known (op : Operation α) {s : Parser × Env σ} (hidle : s.2.parsing = false)
    (hknown : Known s.2.store.user) : Known (op.perform g client s).2.store.user := by
  cases op with
  | parse index input => exact parse_known h s.1 g index input hidle hknown
  | call index c => exact evaluate_known h rfl _ _ _ _ hknown
  | locate offset => exact hknown
  | other g' index input => exact parse_known h {} g' index input hidle hknown

theorem Operation.performAll_known (history : List (Operation α)) {s : Parser × Env σ}
    (hidle : s.2.parsing = false) (hknown : Known s.2.store.user) :
    Known (Operation.performAll g client history s).2.store.user := by
  induction history generalizing s with
  | nil => exact hknown
  | cons op rest ih => exact ih (op.perform_idle g client hidle).1 (op.perform_known h hidle hknown)

end Known

/-! ## Independence -/

/-- What a parse makes of an answer depends on the positions and the trail. -/
theorem outcomeOf_congr (settings : Settings) (answer : Except Fault Result) {p p' : Progress σ}
    (hlocator : p.store.locator = p'.store.locator) (htrail : p.trail = p'.trail) :
    outcomeOf settings answer p = outcomeOf settings answer p' := by
  cases answer with
  | error fault => rfl
  | ok r =>
    cases r with
    | success tree next => rfl
    | failure offset =>
      unfold outcomeOf reportFailure Env.positionAt
      simp only [hlocator, htrail]

/-- Two parses that are not refused, in environments with the same settings, cannot tell each other apart. -/
theorem parse_same {Known : σ → Prop} {Same : σ → σ → Prop} (h : client.Forgets Known Same) (p p' : Parser)
    (index : Nat) (input : Bytes) {env env' : Env σ} (hempty : ¬g.isEmpty = true)
    (hidle : env.parsing = false) (hidle' : env'.parsing = false) (hsettings : env.settings = env'.settings)
    (hknown : Known env.store.user) (hknown' : Known env'.store.user) :
    (Parser.parse p g client index input env).1 = (Parser.parse p' g client index input env').1 ∧
      (Parser.parse p g client index input env).2.2 = (Parser.parse p' g client index input env').2.2 ∧
      Same (Parser.parse p g client index input env).2.1.store.user
        (Parser.parse p' g client index input env').2.1.store.user := by
  obtain ⟨answer, progress, locator, hrun, hparse⟩ :=
    parse_eq p client index input hempty (Bool.eq_false_iff.mp hidle)
  obtain ⟨answer', progress', locator', hrun', hparse'⟩ :=
    parse_eq p' client index input hempty (Bool.eq_false_iff.mp hidle')
  have hscene : parseScene g client input env' = parseScene g client input env := by
    unfold parseScene
    rw [hsettings]
  rw [hscene, ← hsettings] at hrun'
  have hreset : (env.reset client input).store.locator = (env'.reset client input).store.locator ∧
      Same (env.reset client input).store.user (env'.reset client input).store.user :=
    ⟨rfl, h.reset_same hknown hknown'⟩
  -- after the resets the two differ in nothing that an evaluation sees
  have hcouples : Couples (parseScene g client input env) (parseScene g client input env)
      (fun s s' => s.locator = s'.locator ∧ Same s.user s'.user) := h.couples_same rfl rfl
  obtain ⟨_, t, t', trail, hend, hend', hlocator, hsame⟩ :=
    callRule_alike ⟨client, env.settings.maxDepth, true⟩ hcouples env.settings.maxDepth false index
      (Cursor.ofText input 0) hreset {}
  cases hrun.symm.trans hend
  cases hrun'.symm.trans hend'
  rw [hparse, hparse', ← hsettings]
  exact ⟨outcomeOf_congr _ _ hlocator rfl, rfl, hsame⟩

end Uses

section Independence

variable {client : Client α σ} {Known : σ → Prop} {Same : σ → σ → Prop} (h : client.Forgets Known Same)
  (g : Grammar α)

include h

/-- Where a parser and its environment stand after any uses. -/
theorem used_again (history : List (Operation α)) (env : Env σ) (hidle : env.parsing = false)
    (hknown : Known env.store.user) :
    ∃ m, Operation.runAll g client history (Machine.fresh env) = some m ∧
      m.Stands (Operation.performAll g client history ({}, env)) ∧
      (Operation.performAll g client history ({}, env)).2.parsing = false ∧
      (Operation.performAll g client history ({}, env)).2.settings = env.settings ∧
      Known (Operation.performAll g client history ({}, env)).2.store.user ∧
      (g.isEmpty = true → (Operation.performAll g client history ({}, env)).1.trail = {}) := by
  have hfresh : (Machine.fresh env).Stands ({}, env) := ⟨rfl, rfl, rfl, rfl, rfl, Memo.within_empty _⟩
  obtain ⟨m, hrun, hstands⟩ := Operation.runAll_stands g client history hfresh hidle
  obtain ⟨hidle', hsettings⟩ := Operation.performAll_idle g client history (s := ({}, env)) hidle
  exact ⟨m, hrun, hstands, hidle', hsettings, Operation.performAll_known h history hidle hknown,
    fun hempty => Operation.performAll_trail hempty history ({}, env)⟩

/-- The next parse, by the machine and by the evaluator, is the first parse of a new parser in a new
environment. -/
theorem next_parse (index : Nat) (input : Bytes) {m : Machine σ} {used : Parser × Env σ} (hstands : m.Stands used)
    (hidle : used.2.parsing = false) (hknown : Known used.2.store.user)
    (hblank : g.isEmpty = true → used.1.trail = {}) (env : Env σ) (hidle' : env.parsing = false)
    (hsettings : env.settings = used.2.settings) (hknown' : Known env.store.user) :
    ∃ m', (runParse g client index input).run.run m =
        some ((Parser.parse used.1 g client index input used.2).1, m') ∧
      m'.env = (Parser.parse used.1 g client index input used.2).2.1 ∧
      m'.trail = (Parser.parse used.1 g client index input used.2).2.2.trail ∧
      (Parser.parse used.1 g client index input used.2).1 = (Parser.parse {} g client index input env).1 ∧
      m'.trail.furthest = (Parser.parse {} g client index input env).2.2.trail.furthest ∧
      (g.isEmpty = true → m' = m) ∧
      (g.isEmpty = false →
        Same m'.env.store.user (Parser.parse {} g client index input env).2.1.store.user) := by
  obtain ⟨p, env₁⟩ := used
  have henv : m.env = env₁ := hstands.env
  subst henv
  by_cases hempty : g.isEmpty = true
  · rw [runParse_refused g client index input (.inl hempty), parse_of_refused g client index input p (.inl hempty),
      parse_of_refused g client index input {} (.inl hempty)]
    refine ⟨m, rfl, rfl, hstands.trail, rfl, ?_, fun _ => rfl, ?_⟩
    · rw [hstands.trail, hblank hempty]
    · intro hfull
      rw [hempty] at hfull
      cases hfull
  · obtain ⟨peak, hrun, -, -⟩ := runParse_run g client index input hempty (Bool.eq_false_iff.mp hidle) p
    obtain ⟨hanswer, hparser, hsame⟩ :=
      parse_same h p {} index input hempty hidle hidle' hsettings.symm hknown hknown'
    refine ⟨_, hrun, rfl, rfl, hanswer, ?_, fun hnone => absurd hnone hempty, fun _ => hsame⟩
    show (Parser.parse p g client index input m.env).2.2.trail.furthest = _
    rw [hparser]

end Independence

/-- An environment of a watched client, at the start of its use. -/
def Env.watched (settings : Settings) (budget : Option Nat) (user : σ) : Env (Watch × σ) :=
  ⟨settings, false, ⟨{}, ({ budget, left := budget }, user)⟩⟩

/-- **A parse does not depend on what came before.** After any uses of a parser and its environment, whatever they
answered, the next parse has the outcome, the furthest failure and the rule calls that it has in a new parser and
a new environment. The machine, which resets some of its state and restores the rest on every way out, does the
same. With an empty grammar it calls nothing. A parse that is started while another one is running is refused, and
leaves everything as it is. -/
theorem Parser.parse_forgets {client : Client α σ} {Known : σ → Prop} {Same : σ → σ → Prop}
    (h : client.Forgets Known Same) {user user' : σ} (hknown : Known user) (hknown' : Known user')
    (settings : Settings) (budget : Option Nat) (g : Grammar α) (history : List (Operation α)) (index : Nat)
    (input : Bytes) :
    (∃ used next m m',
      Operation.performAll g client.watched history ({}, Env.watched settings budget user) = used ∧
      Parser.parse used.1 g client.watched index input used.2 = next ∧
      Operation.runAll g client.watched history (Machine.fresh (Env.watched settings budget user)) = some m ∧
      (runParse g client.watched index input).run.run m = some (next.1, m') ∧
      m'.env = next.2.1 ∧ m'.trail = next.2.2.trail ∧
      next.1 = (Parser.parse {} g client.watched index input (Env.watched settings budget user')).1 ∧
      m'.trail.furthest =
        (Parser.parse {} g client.watched index input (Env.watched settings budget user')).2.2.trail.furthest ∧
      (g.isEmpty = true → m' = m) ∧
      (g.isEmpty = false → m'.env.store.user.1.calls =
        (Parser.parse {} g client.watched index input (Env.watched settings budget user')).2.1.store.user.1.calls)) ∧
    (g.isEmpty = false → ∀ m : Machine (Watch × σ), m.env.parsing = true →
      (runParse g client.watched index input).run.run m = some (.error .reentrant, m)) ∧
    (g.isEmpty = false → ∀ ctx : Context, ctx.parsing = true → ∀ store : Store (Watch × σ),
      (parseWithin g client.watched index input ctx).run.run store = (.error .reentrant, store)) := by
  refine ⟨?_, ?_, ?_⟩
  · have hwatched := h.watched budget
    obtain ⟨m, hm, hstands, hidle, hsettings, hused, hblank⟩ := used_again hwatched g history
      (Env.watched settings budget user) rfl ⟨rfl, hknown⟩
    obtain ⟨m', hrun, henv, htrail, hanswer, hfurthest, hnone, hsame⟩ :=
      next_parse hwatched g index input hstands hidle hused hblank (Env.watched settings budget user') rfl
        hsettings.symm ⟨rfl, hknown'⟩
    -- the calls on record are part of what the watched host program has the same
    exact ⟨_, _, m, m', rfl, rfl, hm, hrun, henv, htrail, hanswer, hfurthest, hnone,
      fun hfull => (hsame hfull).1⟩
  · intro hempty m hparsing
    rw [runParse_refused g client.watched index input (.inr hparsing), hempty]
    rfl
  · intro hempty ctx hparsing store
    show (let (answer, env, _) := Parser.parse {} g client.watched index input ⟨ctx.settings, ctx.parsing, store⟩
      (answer, env.store)) = _
    rw [parse_of_refused g client.watched index input {} (.inr hparsing), hempty]
    rfl

/-- A client that has no patience left after three calls, and gives up at the next one. Actions cost patience,
too. -/
def restless : Client Unit Nat where
  act _ _ := ExceptT.mk fun store => (.ok .unit, { store with user := store.user - 1 })
  onReset _ := 3
  onCall _ := ExceptT.mk fun
    | 0 => (.error .interrupted, 0)
    | patience + 1 => (.ok (), patience)

theorem restless_forgets : restless.Forgets (fun _ => True) (· = ·) := by
  refine ⟨fun _ => trivial, fun _ _ _ => trivial, fun _ _ _ _ => trivial, fun _ _ => rfl, ?_, ?_⟩
  · rintro c user user' rfl
    exact ⟨rfl, rfl⟩
  · rintro a ctx ⟨locator, user⟩ ⟨locator', user'⟩ - hlocator hsame
    exact ⟨rfl, hlocator, congrArg (· - 1) hsame⟩

/-- Of an interrupted parse, a call inside another text, a query and a failed parse, the next parse sees
nothing. -/
theorem parse_forgets_restless :
    restless.Forgets (fun _ => True) (· = ·) ∧
      (Parser.parse {} twoEndings restless.watched 0 (Bytes.ascii "aac")
        (Env.watched { memoize := false } (some 5) 0)).1 = .error .interrupted ∧
      ∃ m m', Operation.runAll twoEndings restless.watched
          [.parse 0 (Bytes.ascii "aac"), .call 1 (Cursor.ofText (Bytes.ascii "xaa") 1), .locate 2,
            .parse 0 (Bytes.ascii "b")]
          (Machine.fresh (Env.watched { memoize := false } (some 5) 0)) = some m ∧
        (runParse twoEndings restless.watched 0 (Bytes.ascii "z")).run.run m =
          some (.ok (.failure ⟨0, ⟨1, 1⟩, [Bytes.ascii "\"a\""]⟩), m') ∧
        m'.env.store.user.1.calls =
          [⟨Bytes.ascii "A", 0, false⟩, ⟨Bytes.ascii "A", 0, false⟩, ⟨Bytes.ascii "S", 0, false⟩] := by
  have hknown : ∀ user : Nat, (fun _ => True) user := fun _ => trivial
  have hanswer : (Parser.parse {} twoEndings restless.watched 0 (Bytes.ascii "z")
      (Env.watched { memoize := false } (some 5) 7)).1 =
        .ok (.failure ⟨0, ⟨1, 1⟩, [Bytes.ascii "\"a\""]⟩) := by
    cbv
  have hcalls : (Parser.parse {} twoEndings restless.watched 0 (Bytes.ascii "z")
      (Env.watched { memoize := false } (some 5) 7)).2.1.store.user.1.calls =
        [⟨Bytes.ascii "A", 0, false⟩, ⟨Bytes.ascii "A", 0, false⟩, ⟨Bytes.ascii "S", 0, false⟩] := by
    cbv
  refine ⟨restless_forgets, by cbv, ?_⟩
  obtain ⟨_, next, m, m', -, -, hm, hrun, -, -, hnext, -, -, hrecord⟩ :=
    (Parser.parse_forgets restless_forgets (hknown 0) (hknown 7) { memoize := false } (some 5) twoEndings
      [.parse 0 (Bytes.ascii "aac"), .call 1 (Cursor.ofText (Bytes.ascii "xaa") 1), .locate 2,
        .parse 0 (Bytes.ascii "b")] 0 (Bytes.ascii "z")).1
  refine ⟨m, m', hm, ?_, ?_⟩
  · rw [hrun, hnext, hanswer]
  · exact (hrecord rfl).trans hcalls

end Packrat
