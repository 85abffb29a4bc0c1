import Renumber.Proofs.Lossless
import Renumber.Proofs.Numbering.Patch
import Renumber.Proofs.Numbering.Relex
import Renumber.Proofs.Numbering.Reread
import Renumber.Proofs.Sound

/-!
# Parsing a numbered text

Numbering edits a tree and prints it. The main result is that nothing comes apart in this
(`fixText_reparses`): the printed text has no problems, and its tree is the edited one. Each code keeps
the tree one that its own text is parsed as (`parse_recoded`), since the text is lexed again as the
tokens with the code and these are read again as the trees with the code.
-/

namespace Renumber

open Layout (lexFrom)
open Token (spelled)
open Lexeme (sound)
open Renumber.Tree (leavesOf Recoded Recodings)

/-! ## Texts without problems -/

/-- The text of a tree is parsed as the tree and without problems when its tokens are those of the tree
and are read as the trees below it. -/
theorem parse_text_iff {cs : List Tree} :
    parse (Tree.node .module cs).text = ⟨.node .module cs, []⟩ ↔
      lexFrom [] .fresh (spelled (leavesOf cs)) = sound (leavesOf cs) ∧
        Grammar.Reads (.rule .file) (leavesOf cs) cs [] := by
  have htext : (Tree.node .module cs).text.toList = spelled (leavesOf cs) := by
    rw [Tree.text, Tree.leaves_node, Token.toList_textOf]
  have hlex : lex (Tree.node .module cs).text = lexFrom [] .fresh (spelled (leavesOf cs)) := by
    rw [lex, htext]
  constructor
  · intro h
    have htokens : tokensOf (Tree.node .module cs).text = leavesOf cs := by
      rw [← leaves_parse, h, Tree.leaves_node]
    obtain ⟨hsound, hfaults⟩ := errors_parse_eq_nil_iff.1 (congrArg Parse.errors h)
    rw [htokens] at hsound hfaults
    have hcs : (Grammar.readFile (leavesOf cs)).trees = cs := by
      have htree := congrArg Parse.tree h
      rw [← htokens]
      injection htree
    have hreads := Grammar.reads_readFile hfaults
    rw [hcs, Grammar.rest_readFile] at hreads
    · exact ⟨hlex ▸ hsound, hreads⟩
    · intro t ht
      exact kind_ne_eof_of_mem_tokensOf (htokens ▸ ht)
  · rintro ⟨hsound, hreads⟩
    rw [hsound] at hlex
    have hfile := Grammar.readFile_of_reads hreads
    have herrors := errors_parse_of_lex hlex (congrArg Grammar.Reading.faults hfile)
    have htree : (parse (Tree.node .module cs).text).tree = .node .module cs := by
      rw [tree_parse_of_lex hlex, treeOf, hfile]
    exact congrArg₂ Parse.mk htree herrors

/-- One code keeps a tree the one that its text is parsed as. -/
theorem parse_recoded {n : UInt64} {t : Tree} {ts : List Tree} (h : parse t.text = ⟨t, []⟩)
    (hcode : Recoded n [t] ts) : ∃ t', ts = [t'] ∧ parse t'.text = ⟨t', []⟩ := by
  obtain ⟨cs, rfl⟩ : ∃ cs, t = .node .module cs := ⟨_, (congrArg Parse.tree h).symm⟩
  rcases Tree.recoded_node hcode with ⟨_, _, hk, -⟩ | ⟨cs', hcs, rfl⟩
  · cases hk
  obtain ⟨hlex, hreads⟩ := parse_text_iff.1 h
  obtain ⟨hread, hedit⟩ := Grammar.reads_recoded hreads (by decide) hcs
  rw [List.append_nil] at hread hedit
  exact ⟨_, rfl, parse_text_iff.2 ⟨Layout.lexFrom_renumbered hlex hedit, hread⟩⟩

/-- So do codes one after another. -/
theorem parse_recodings {t : Tree} {ts : List Tree} (h : parse t.text = ⟨t, []⟩)
    (hcodes : Recodings [t] ts) : ∃ t', ts = [t'] ∧ parse t'.text = ⟨t', []⟩ := by
  induction hcodes with
  | refl => exact ⟨t, rfl, h⟩
  | tail _ hcode ih =>
    obtain ⟨u, rfl, hu⟩ := ih
    obtain ⟨n, hcode⟩ := hcode
    exact parse_recoded hu hcode

/-- What a walk makes of the tree of a text without problems is the tree that its own text is parsed
as. -/
theorem parse_of_coded {text : String} {s s' : UInt64} {t : Tree}
    {fs : List (UInt64 × FixKind × Shape)} (herrors : (parse text).errors = [])
    (h : Tree.Coded s [(parse text).tree] [t] fs s') : parse t.text = ⟨t, []⟩ := by
  have hparse : parse (parse text).tree.text = ⟨(parse text).tree, []⟩ := by
    rw [text_parse, ← herrors]
  obtain ⟨u, hu, hout⟩ := parse_recodings hparse h.recodings
  obtain rfl := (List.cons.inj hu).1
  exact hout

/-- A numbered text is parsed without problems, and as the tree that it has been printed from: with the
same nodes, the same tokens, and the trivia in the same places. -/
theorem fixText_reparses {dedent : Bool} {source : String} {s s' : Series} {o : Outcome}
    (h : fixText dedent source s = (.ok o, s')) : parse o.output = ⟨o.tree, []⟩ := by
  obtain ⟨herrors, hcoded⟩ := Tree.coded_of_fixText h
  exact parse_of_coded herrors hcoded

set_option maxRecDepth 4000 in
/-- An argument of several lines that is gone takes its brackets and its comment along, and leaves the
block as it was. -/
theorem fixText_reparses_block : ∃ o s',
    fixText false "if x:\n    result.error(\n        old(  # gone\n            1),\n        y)\n" ⟨6⟩ =
      (.ok o, s') ∧
    o.output = "if x:\n    result.error(\n        7,\n        y)\n" ∧
    parse o.output = ⟨o.tree, []⟩ := by
  have hlex : lex "if x:\n    result.error(\n        old(  # gone\n            1),\n        y)\n" =
      sound [⟨.ifKw, "if"⟩, ⟨.whitespace, " "⟩, ⟨.ident, "x"⟩, ⟨.colon, ":"⟩, ⟨.newline, "\n"⟩,
        ⟨.whitespace, "    "⟩, ⟨.indent, ""⟩, ⟨.ident, "result"⟩, ⟨.dot, "."⟩, ⟨.ident, "error"⟩,
        ⟨.lParen, "("⟩, ⟨.nl, "\n"⟩, ⟨.whitespace, "        "⟩, ⟨.ident, "old"⟩, ⟨.lParen, "("⟩,
        ⟨.whitespace, "  "⟩, ⟨.comment, "# gone"⟩, ⟨.nl, "\n"⟩, ⟨.whitespace, "            "⟩,
        ⟨.number, "1"⟩, ⟨.rParen, ")"⟩, ⟨.comma, ","⟩, ⟨.nl, "\n"⟩, ⟨.whitespace, "        "⟩,
        ⟨.ident, "y"⟩, ⟨.rParen, ")"⟩, ⟨.newline, "\n"⟩, ⟨.dedent, ""⟩] := by cbv
  have hpatched : Patched 0 [⟨32, "old(  # gone\n            1)", "7"⟩]
      "if x:\n    result.error(\n        old(  # gone\n            1),\n        y)\n"
      "if x:\n    result.error(\n        7,\n        y)\n" :=
    ⟨"if x:\n    result.error(\n        ", ",\n        y)\n", ",\n        y)\n", by decide, by decide, rfl, rfl⟩
  obtain ⟨o, s', hfix, hout⟩ := exists_output_of_lex false ⟨6⟩ rfl hlex (by decide +kernel)
    (by decide +kernel) (by decide) hpatched
  exact ⟨o, s', hfix, hout, fixText_reparses hfix⟩

end Renumber
