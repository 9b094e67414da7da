import Marginalia.Pattern.Bounds
import Marginalia.Pattern.Source

/-
  This file defines what the cutting of lines asks of patterns:
  that a source can be compiled, and that a pattern can be
  searched for.  Whoever does both is an engine.

  Nothing else is asked for, so lines can be cut with any
  engine.  What is proved about lines names what it needs from
  the engine; a grammar carries an engine whose matches are known
  to stay in their line.

  Key definitions include:
    * `Engine`
    * `Engine.StaysInside`
    * `BoundedEngine`
    * `Engine.standard`, `BoundedEngine.standard`
-/

namespace Marginalia

/-
  Compiling a source, which may be rejected, and searching a
  line for a pattern from a column on.
-/
structure Engine where
  compile? : Bytes → Option Pattern
  search? : Pattern → Array UInt8 → Nat → Option Match

namespace Engine

/-
  What is found starts no earlier than the search, ends no
  earlier than it starts, and ends inside the line.  Nothing is
  said about groups.
-/
structure StaysInside (engine : Engine) : Prop where
  le_start :
    ∀ {pattern : Pattern} {line : Array UInt8} {column : Nat}
      {m : Match},
      engine.search? pattern line column = some m →
        column ≤ m.start
  start_le_stop :
    ∀ {pattern : Pattern} {line : Array UInt8} {column : Nat}
      {m : Match},
      engine.search? pattern line column = some m →
        m.start ≤ m.stop
  stop_le_size :
    ∀ {pattern : Pattern} {line : Array UInt8} {column : Nat}
      {m : Match},
      engine.search? pattern line column = some m →
        m.stop ≤ line.size

/- The engine of the dialect in which grammars are written. -/
def standard : Engine :=
  { compile? := Pattern.compile?
    search? := Pattern.searchFrom? }

/- The matches of the standard engine stay inside the line. -/
theorem standard_staysInside : standard.StaysInside where
  le_start hFound := (Pattern.searchFrom?_bounds hFound).1
  start_le_stop hFound := (Pattern.searchFrom?_bounds hFound).2.1
  stop_le_size hFound := (Pattern.searchFrom?_bounds hFound).2.2

end Engine

/- An engine whose matches stay inside the line. -/
structure BoundedEngine extends Engine where
  staysInside : toEngine.StaysInside

namespace BoundedEngine

/- The engine that rejects every source and finds nothing. -/
instance : Inhabited BoundedEngine where
  default :=
    { compile? := fun _ => none
      search? := fun _ _ _ => none
      staysInside := ⟨nofun, nofun, nofun⟩ }

/- The engine of the dialect in which grammars are written. -/
def standard : BoundedEngine :=
  ⟨Engine.standard, Engine.standard_staysInside⟩

end BoundedEngine

end Marginalia
