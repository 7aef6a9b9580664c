import Packrat.Source.Translate

/-!
# `Packrat.Source.Compile` — from grammar sources to grammars

## Contents
- **Options.** `Options`: actions, matchers, modules, the meaning of braces, and the start rule.
- **Compiling.** `compile` adds the source and then its modules to a builder, and links it.
-/

namespace Packrat.Source

variable {α : Type}

/-- What a grammar source can refer to, and how it is read. -/
structure Options (α : Type) where
  actions : List (Bytes × α) := []
  matchers : List (Bytes × Matcher) := Matcher.standard
  /-- Sources whose rules get the name of the module and a dot in front. -/
  modules : List (Bytes × Bytes) := []
  braces : BracePolicy := .interpolate
  start : Option Bytes := none

/-- The modules in the order of their names. -/
def Options.sortedModules (options : Options α) : List (Bytes × Bytes) :=
  options.modules.mergeSort fun a b => Bytes.le a.1 b.1

/-- Adds a module to a builder. -/
def addModule (options : Options α) (b : Builder α) (entry : Bytes × Bytes) : Except Fault (Builder α) := do
  let (name, text) := entry
  return (← addSource text options.braces options.matchers (name ++ Bytes.ascii ".") b).1

/-- The parts of the grammar that a source and its modules define, with the name of the first
definition. -/
def gather (source : Bytes) (options : Options α) : Except Fault (Builder α × Bytes) := do
  let b : Builder α := ({} : Builder α).addActions options.actions
  let (b, first) ← addSource source options.braces options.matchers [] b
  let b ← options.sortedModules.foldlM (addModule options) b
  return (b, first)

/-- Compiles a grammar source. The start rule is the one that the options name, else the first
definition. -/
def compile (source : Bytes) (options : Options α) : Except Fault (Grammar α) := do
  let (b, first) ← gather source options
  match (b.setStart (options.start.getD first)).build with
  | .ok g => return g
  | .error e => throw (.grammar e)

end Packrat.Source
