import Renumber.Parse
import Renumber.Proofs.Layout.Inside

/-!
# Sources without problems

When none of its lexemes has a problem, the tokens of a source are all that is known of it
(`Lexeme.eq_sound`), and its problems are the faults of their reading. So there are none if that reading has
none (`errors_parse_eq_nil_iff`), and both this and the tree can be told from the tokens alone
(`errors_parse_of_lex`, `tree_parse_of_lex`).
-/

namespace Renumber

open Lexeme (sound)

theorem Lexeme.eq_sound {ls : List Lexeme} (h : ∀ l ∈ ls, l.problem? = none) :
    ls = sound (ls.map token) := by
  induction ls with
  | nil => rfl
  | cons l ls ih =>
    rw [List.map_cons, sound_cons, ← ih fun m hm => h m (List.mem_cons_of_mem _ hm),
      ← h l List.mem_cons_self]

theorem problem?_of_mem_sound {l : Lexeme} {ts : List Token} (h : l ∈ sound ts) :
    l.problem? = none := by
  obtain ⟨t, -, rfl⟩ := List.mem_map.1 h
  rfl

theorem lexicalErrors_eq_nil_iff {ls : List Lexeme} :
    lexicalErrors ls = [] ↔ ∀ l ∈ ls, l.problem? = none := by
  rw [lexicalErrors, List.filterMap_eq_nil_iff]
  constructor
  · intro h l hl
    obtain ⟨i, hi, rfl⟩ := List.getElem_of_mem hl
    have hlen : i < (Token.spans 0 (ls.map Lexeme.token)).length := by
      rw [Token.length_spans, List.length_map]
      exact hi
    have hmem := List.getElem_mem (l := ls.zip (Token.spans 0 (ls.map Lexeme.token)))
      (n := i) (by rw [List.length_zip]; omega)
    have := h _ hmem
    rw [List.getElem_zip] at this
    simpa using this
  · rintro h ⟨l, span⟩ hmem
    dsimp only
    rw [h l (List.of_mem_zip hmem).1, Option.map_none]

/-- A source has no problems when its tokens have none and are read without faults. -/
theorem errors_parse_eq_nil_iff {source : String} : (parse source).errors = [] ↔
    lex source = sound (tokensOf source) ∧
      (Grammar.readFile (tokensOf source)).faults = [] := by
  have hsort : (parse source).errors = [] ↔ lexicalErrors (lex source) ++
      (Grammar.readFile (tokensOf source)).faults.map
        (Fault.error (Token.sizeOf (tokensOf source))) = [] := by
    rw [← List.length_eq_zero_iff, ← List.length_eq_zero_iff]
    exact (congrArg (· = 0) (List.length_mergeSort ..)).to_iff
  rw [hsort, List.append_eq_nil_iff, List.map_eq_nil_iff, lexicalErrors_eq_nil_iff]
  refine and_congr_left fun _ => ⟨Lexeme.eq_sound, fun h l hl => ?_⟩
  rw [h] at hl
  exact problem?_of_mem_sound hl

section
variable {source : String} {ts : List Token}

theorem tokensOf_of_lex (h : lex source = sound ts) : tokensOf source = ts := by
  rw [tokensOf, h, Lexeme.map_token_sound]

theorem lexicalErrors_of_lex (h : lex source = sound ts) : lexicalErrors (lex source) = [] :=
  lexicalErrors_eq_nil_iff.2 fun _ hl => problem?_of_mem_sound (h ▸ hl)

/-- A source that is lexed as tokens without problems has none when these are read without faults. -/
theorem errors_parse_of_lex (h : lex source = sound ts) (hfaults : (Grammar.readFile ts).faults = []) :
    (parse source).errors = [] := by
  rw [errors_parse_eq_nil_iff, tokensOf_of_lex h]
  exact ⟨h, hfaults⟩

theorem errors_parse_ne_nil_of_lex (h : lex source = sound ts)
    (hfaults : (Grammar.readFile ts).faults ≠ []) : (parse source).errors ≠ [] := by
  rw [ne_eq, errors_parse_eq_nil_iff, tokensOf_of_lex h]
  exact fun hnone => hfaults hnone.2

theorem tree_parse_of_lex (h : lex source = sound ts) : (parse source).tree = treeOf ts :=
  congrArg treeOf (tokensOf_of_lex h)

end

end Renumber
