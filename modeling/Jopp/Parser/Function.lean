import Jopp.Parser.Nesting

/-!
# Jopp.Parser.Function

The free function `jopp::parse` (`lib/parser.hpp`). It builds its parser without passing on
`max_levels`, so the default limit holds whatever the caller asks for. `joppParse_agrees_iff`:
when it does what a parser with the caller's limit does.
-/

namespace Jopp

def parserErrorCodeToString : ParserErrorCode → String
  | .completed => "Completed"
  | .moreDataNeeded => "More data needed"
  | .keyAlreadyExists => "Key already exists"
  | .characterMustBeEscaped => "Character must be escaped"
  | .unsupportedEscapeSequence => "Unsupported escape sequence"
  | .illegalDelimiter => "Illegal delimiter"
  | .invalidValue => "Invalid value"
  | .noTopLevelNode => "No top level node"
  | .nestingLevelTooDeep => "Nesting level too deep"

inductive JoppParseOutcome where
  | returned (outputObject : Container)
  | threw (what : String)
  | undefined
  | outOfFuel

/-- The default argument of the constructor. -/
def defaultMaxLevels : Option Nat := some 1024

def joppParse (cc : CharConv) (inputSeq : Str) (_maxLevels : Option Nat) : JoppParseOutcome :=
  let parser := Parser.init .empty defaultMaxLevels
  match parse cc parser inputSeq with
  | .returned result parser =>
    if result.ec ≠ .completed then
      .threw ("Failed to parse input_sequence: " ++ parserErrorCodeToString result.ec)
    else .returned parser.root
  | .undefined => .undefined
  | .outOfFuel => .outOfFuel

variable {cc : CharConv} {w : Str} {maxLevels : Option Nat}

theorem parserErrorCodeToString_injective {ec ec' : ParserErrorCode}
    (h : parserErrorCodeToString ec = parserErrorCodeToString ec') : ec = ec' := by
  revert h
  cases ec <;> cases ec' <;> decide

theorem joppParse_returned {c : Container} :
    joppParse cc w maxLevels = .returned c ↔ Completes cc defaultMaxLevels w c := by
  cases hp : parse cc (Parser.init .empty defaultMaxLevels) w with
  | undefined | outOfFuel => simp [joppParse, Completes, hp]
  | returned res q => by_cases hec : res.ec = .completed <;> simp [joppParse, Completes, hp, hec]

theorem joppParse_threw (hc : ∀ c, ¬ Completes cc defaultMaxLevels w c) :
    (∃ what, joppParse cc w maxLevels = .threw what) ↔
      w.find? (fun ch => !isWhitespace ch) ≠ some Delimiters.endArray := by
  rw [ne_eq, ← parse_undefined_iff cc .empty defaultMaxLevels]
  cases hp : parse cc (Parser.init .empty defaultMaxLevels) w with
  | undefined => simp [joppParse, hp]
  | outOfFuel => exact absurd hp (parse_ne_outOfFuel cc _ w)
  | returned res q =>
    have hec : res.ec ≠ .completed := fun hec => hc q.root ⟨res, q, hp, hec, rfl⟩
    simp [joppParse, hp, hec]

theorem not_completes_of_endArray (cc : CharConv)
    (h : w.find? (fun ch => !isWhitespace ch) = some Delimiters.endArray) (maxLevels : Option Nat)
    (c : Container) : ¬ Completes cc maxLevels w c := by
  rintro ⟨res, q, hp, -⟩
  rw [(parse_undefined_iff cc .empty maxLevels w).mpr h] at hp
  cases hp

/-- It returns what a parser with the caller's limit leaves at its root, if that one completes, and
throws otherwise. -/
def JoppParseAgrees (cc : CharConv) (w : Str) (maxLevels : Option Nat) : Prop :=
  (∀ c, joppParse cc w maxLevels = .returned c ↔ Completes cc maxLevels w c) ∧
    ((∀ c, ¬ Completes cc maxLevels w c) → ∃ what, joppParse cc w maxLevels = .threw what)

/-- **The caller's limit** makes no difference exactly if the input, where it is accepted at all, is
nested so that both limits allow it or neither does. -/
theorem joppParse_agrees_iff (cc : CharConv) (hcc : cc.Plain) (w : Str) (maxLevels : Option Nat) :
    JoppParseAgrees cc w maxLevels ↔
      w.find? (fun ch => !isWhitespace ch) ≠ some Delimiters.endArray ∧
      ∀ c, Completes cc none w c →
        (nesting w ≤ 1024 ↔ ∀ k, maxLevels = some k → nesting w ≤ k) := by
  have hdefault : ∀ c, Completes cc defaultMaxLevels w c ↔
      Completes cc none w c ∧ nesting w ≤ 1024 := fun c => by
    rw [completes_iff hcc]
    exact and_congr_right fun _ => ⟨fun h => h 1024 rfl, fun h k hk => by cases hk; exact h⟩
  have hcaller : ∀ c, Completes cc maxLevels w c ↔
      Completes cc none w c ∧ ∀ k, maxLevels = some k → nesting w ≤ k := fun c =>
    completes_iff hcc
  constructor
  · rintro ⟨hreturns, hthrows⟩
    refine ⟨fun hend => ?_, fun c hc => ?_⟩
    · obtain ⟨what, hwhat⟩ := hthrows (not_completes_of_endArray cc hend maxLevels)
      have hnone := not_completes_of_endArray cc hend defaultMaxLevels
      exact (joppParse_threw hnone).mp ⟨what, hwhat⟩ hend
    · have hsame := joppParse_returned.symm.trans (hreturns c)
      rw [hdefault, hcaller] at hsame
      exact ⟨fun h => (hsame.mp ⟨hc, h⟩).2, fun h => (hsame.mpr ⟨hc, h⟩).2⟩
  · rintro ⟨hend, hlimits⟩
    have hsame : ∀ c, Completes cc defaultMaxLevels w c ↔ Completes cc maxLevels w c := fun c => by
      rw [hdefault, hcaller]
      exact and_congr_right (hlimits c)
    refine ⟨fun c => joppParse_returned.trans (hsame c), fun hnone => ?_⟩
    exact (joppParse_threw fun c hc => hnone c ((hsame c).mp hc)).mpr hend

/-- `[]` with a limit of one level. -/
theorem joppParse_agrees_flat : JoppParseAgrees .binary [0x5b, 0x5d] (some 1) := by
  refine (joppParse_agrees_iff .binary binary_plain _ _).mpr ⟨by decide, fun c _ => ?_⟩
  have hflat : nesting [0x5b, 0x5d] = 1 := by decide
  rw [hflat]
  exact ⟨fun _ k hk => by cases hk; exact Nat.le_refl 1, fun _ => by decide⟩

/-- `[]` with a limit of no levels is returned all the same. -/
theorem joppParse_ignores_limit :
    ¬ ∀ cc : CharConv, cc.Plain → ∀ w maxLevels, JoppParseAgrees cc w maxLevels := by
  intro h
  obtain ⟨res, q, hp, hec, -⟩ :=
    ((h .binary binary_plain [0x5b, 0x5d] (some 0)).1 (.array [])).mp rfl
  have hrun : parse .binary (Parser.init .empty (some 0)) [0x5b, 0x5d] =
      .returned ⟨1, .nestingLevelTooDeep, 1, 1⟩ (Parser.init .empty (some 0)) := rfl
  rw [hrun] at hp
  cases hp
  cases hec

end Jopp
