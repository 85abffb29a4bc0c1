import Renumber.Proofs.Grammar.Precedence

/-!
# Expressions are read as their trees

Each kind of expression is read as its tree if its parts are and are as tight as their places demand
(`readable_binary` and its like). With parentheses around the parts that are not, every expression is
(`readable_fitted`). An expression is read in three ways, depending on what it is a part of (`Readable`): by
the rule of a level, as the start of a chain of operators, and as the start of a chain of trailers.
-/

namespace Renumber.Expr

open Grammar Phrase

section
variable {e : Expr} {ts us xs : List Token} {a n t : Tree} {ns : List Tree}

/-- The tokens of an expression start like one of its level and are read as its tree by the rules of its
level and of looser ones, also where an operator or a trailer comes behind. -/
structure Readable (e : Expr) : Prop where
  starts : Starts e.level e.tokens
  reads : ∀ m ≤ e.level, m ≤ 12 → ReadsAs (rule (ofLevel m)) m e.tokens e.tree
  chained : ∀ m ∈ chainLevels, m ≤ e.level → Chained m e.tokens e.tree
  primary : 13 ≤ e.level → ∃ a ns, Primary e.tokens a ns ∧ e.parts e.tree = a :: ns

theorem Readable.starts_loosely (h : Readable e) : Starts 0 e.tokens :=
  h.starts.loosen (Nat.zero_le _)

/-- It is enough that the tokens are read at the level of the expression. -/
theorem readable_of_reads {m : Nat} (hm : m = min e.level 12) (hstarts : Starts e.level e.tokens)
    (hreads : ReadsAs (rule (ofLevel m)) m e.tokens e.tree)
    (hchained : e.level ∈ chainLevels → Chained e.level e.tokens e.tree)
    (hprimary : 13 ≤ e.level → ∃ a ns, Primary e.tokens a ns ∧ e.parts e.tree = a :: ns) :
    Readable e := by
  have hlevels (k : Nat) (hk : k ≤ e.level) (hk' : k ≤ 12) :
      ReadsAs (rule (ofLevel k)) k e.tokens e.tree :=
    hreads.loosen (by omega) (by omega) (hstarts.loosen (by omega))
  refine ⟨hstarts, hlevels, fun k hk hle => ?_, hprimary⟩
  have hten : k ≤ 10 := (by decide : ∀ k ∈ chainLevels, k ≤ 10) k hk
  rcases Nat.eq_or_lt_of_le hle with rfl | hlt
  · exact hchained hk
  · exact .of_readsAs (hlevels (k + 1) hlt (by omega))

/-- No operator that groups to the left, and no operand with trailers. -/
theorem readable_of_level {m : Nat} (hlevel : e.level = m) (hm : m ≤ 12) (hchain : m ∉ chainLevels)
    (hstarts : Starts m e.tokens) (hreads : ReadsAs (rule (ofLevel m)) m e.tokens e.tree) :
    Readable e := by
  subst hlevel
  exact readable_of_reads (Nat.min_eq_left hm).symm hstarts hreads (absurd · hchain) (by omega)

/-- An atom by itself. -/
theorem readable_of_atom (hlevel : e.level = 14) (hstarts : Starts 14 e.tokens)
    (hatom : ReadsAs (rule .atom) 14 e.tokens e.tree) : Readable e := by
  have hparts : e.parts e.tree = [e.tree] := by rw [parts, if_neg (by omega)]
  refine readable_of_reads (m := 12) (by omega) (hlevel ▸ hstarts)
    (hatom.power (hstarts.loosen (by omega)))
    (fun h => absurd (hlevel ▸ h : 14 ∈ chainLevels) (by decide))
    fun _ => ⟨e.tree, [], .of_readsAs hatom, hparts⟩

/-- An operand and one more trailer. -/
theorem readable_of_trailer {f : Expr} {x : Token} (h : Readable e) (he : 13 ≤ e.level)
    (hx : x.kind ∈ trailerKinds) (hn : ReadsAs (rule .trailer) 14 (x :: xs) n)
    (hlevel : f.level = 13) (htokens : f.tokens = e.tokens ++ x :: xs)
    (htree : f.tree = .node .powerExpr (e.parts e.tree ++ [n])) : Readable f := by
  obtain ⟨a, ns, hprimary, hparts⟩ := h.primary he
  have hbeside : Beside (x :: xs) := .cons ((by decide : ∀ k ∈ trailerKinds,
    k.isTrivia = false ∧ k ∉ execOperands) _ hx) xs
  have hstarts : Starts 13 f.tokens := htokens ▸ (h.starts.append hbeside).loosen he
  have hmore : Primary f.tokens a (ns ++ [n]) := htokens ▸ hprimary.append hx hn
  rw [hparts, List.cons_append] at htree
  refine readable_of_reads (m := 12) (by omega) (hlevel ▸ hstarts)
    (htree ▸ hmore.readsAs (by simp) (hstarts.loosen (by omega)))
    (fun h => absurd (hlevel ▸ h : 13 ∈ chainLevels) (by decide))
    fun _ => ⟨a, ns ++ [n], hmore, by rw [parts, if_pos hlevel, htree]; rfl⟩

/-! ## Whole expressions -/

/-- The kinds of tokens that come behind a whole expression. -/
def enders : List Kind := [.rParen, .comma, .newline]

theorem not_holds_of_enders (hus : nextKind us ∈ enders) {l : Look}
    (hl : ∀ k ∈ enders, (l.may true).has k = false) : l.holds us = false :=
  Look.holds_of_nextKind rfl (hl _ hus)

theorem Readable.reads_test (h : Readable e) (hus : nextKind us ∈ enders) :
    Reads (rule .namedExprTest) (e.tokens ++ us) [e.tree] us := by
  have hloose : (nextKind us).tightness ≤ 0 :=
    (by decide : ∀ k ∈ enders, k.tightness ≤ 0) _ hus
  exact .rule ((h.reads 0 (Nat.zero_le _) (Nat.zero_le _) us hloose).operand
    (.right (not_holds_of_enders hus (by decide)) .done) (h.starts.pending_append us))

theorem Readable.reads_starOrTest (h : Readable e) (hus : nextKind us ∈ enders) :
    Reads (rule .starOrTest) (e.tokens ++ us) [e.tree] us :=
  .rule (.right (h.starts_loosely.holds us (by decide)) (h.reads_test hus))

theorem Readable.reads_argument (h : Readable e) (hus : nextKind us ∈ enders) :
    Reads (rule .argument) (e.tokens ++ us) [e.tree] us :=
  .rule (.right (h.starts_loosely.holds us (by decide))
    ((h.reads_test hus).operand (.right (not_holds_of_enders hus (by decide)) .done)
      (h.starts.pending_append us)))

/-! ## One case after another -/

theorem readable_operand (o : Operand) : Readable (operand o) := by
  have hstarter : o.token.kind ∈ starters 14 :=
    (by decide : operandKinds ⊆ starters 14) o.kind_mem
  have hstarts : Starts 14 [o.token] := ⟨_, _, rfl, hstarter, fun _ => by rintro _ ⟨⟩⟩
  refine readable_of_atom rfl hstarts fun us hus => ?_
  have htriv := starters_not_trivia hstarter
  have hfirst : nextKind (o.token :: us) = o.token.kind := nextKind_cons htriv us
  have hpending : pending (o.token :: us) = [] := hstarts.pending_append us
  have hmem := o.kind_mem
  simp only [operandKinds, List.mem_cons, List.not_mem_nil, or_false] at hmem
  rcases hmem with hk | hk | hk <;> rw [tree, hk] <;> rw [hk] at hfirst
  · exact .rule (.left (Look.holds_of_nextKind hfirst (by decide))
      (.node (.of_next_nil htriv) hpending))
  · exact .rule (.right (Look.holds_of_nextKind hfirst (by decide))
      (.left (Look.holds_of_nextKind hfirst (by decide)) (.node (.of_next_nil htriv) hpending)))
  · have hstop := Look.not_holds_of_tightness (l := is .str) hus (by decide +kernel)
    exact .rule (.right (Look.holds_of_nextKind hfirst (by decide))
      (.right (Look.holds_of_nextKind hfirst (by decide))
      (.left (Look.holds_of_nextKind hfirst (by decide))
      (.node (.again (Look.holds_of_nextKind hfirst (by decide)) (.of_next_nil htriv)
        (.stop hstop)) hpending))))

theorem readable_paren (h : Readable e) : Readable (paren e) := by
  refine readable_of_atom rfl ⟨_, _, rfl, by decide, Kind.noConfusion⟩ fun us _ => ?_
  have hclose : nextKind (⟨.rParen, ")"⟩ :: us) = .rParen := rfl
  have hinner : Reads (rule .testListComp) (e.tokens ++ ⟨.rParen, ")"⟩ :: us) [e.tree]
      (⟨.rParen, ")"⟩ :: us) :=
    .rule (.seq (h.reads_starOrTest (by rw [hclose]; decide))
      (.right rfl (.seq (.stop rfl) (.right rfl .done))))
  have hstarts := h.starts_loosely
  rw [tokens, List.cons_append, List.append_assoc]
  exact .rule (.right rfl (.right rfl (.right rfl (.left rfl
    (.node (.seq (.of_next_nil rfl)
      (.seq (.right (hstarts.holds _ (by decide)) (.right (hstarts.holds _ (by decide)) hinner))
        (.left rfl (.of_next_nil rfl)))) rfl)))))

theorem readable_attr (h : Readable e) (he : 13 ≤ e.level)
    (name : {o : Operand // o.token.kind = .ident}) : Readable (attr e name) := by
  have hkind : name.1.token.kind.isTrivia = false := by rw [name.2]; rfl
  have hname (us : List Token) : (is .ident).holds (name.1.token :: us) = true := by
    rw [is, Look.holds, nextKind_cons hkind, name.2]
    rfl
  have htrailer : ReadsAs (rule .trailer) 14 [⟨.dot, "."⟩, name.1.token]
      (.node .attrTrailer [.token ⟨.dot, "."⟩, .token name.1.token]) := fun us _ =>
    .rule (.right rfl (.right rfl
      (.node (.seq (.of_next_nil rfl) (.left (hname us) (.of_next_nil hkind))) rfl)))
  exact readable_of_trailer h he (by decide) htrailer rfl rfl rfl

theorem moreTokens_next (es : List Expr) (us : List Token) :
    nextKind (moreTokens es ++ ⟨.rParen, ")"⟩ :: us) ∈ enders := by
  cases es with
  | nil => exact List.mem_cons_self
  | cons e es => exact List.mem_cons_of_mem _ List.mem_cons_self

/-- The arguments after the first one. -/
theorem reads_more {es : List Expr} (h : ∀ e ∈ es, Readable e) (us : List Token) :
    Reads (many (is .comma) (seq next (branch (is .rParen) done (rule .argument))))
      (moreTokens es ++ ⟨.rParen, ")"⟩ :: us) (moreTrees es) (⟨.rParen, ")"⟩ :: us) := by
  induction es with
  | nil => exact .stop rfl
  | cons e es ih =>
    have he := h e List.mem_cons_self
    have hargument := he.reads_argument (moreTokens_next es us)
    rw [moreTokens, List.cons_append, List.append_assoc]
    have hfirst : Reads (seq next (branch (is .rParen) done (rule .argument)))
        (⟨.comma, ","⟩ :: (e.tokens ++ (moreTokens es ++ ⟨.rParen, ")"⟩ :: us)))
        [.token ⟨.comma, ","⟩, e.tree] (moreTokens es ++ ⟨.rParen, ")"⟩ :: us) :=
      .seq (.of_next_nil rfl)
        (.right (he.starts_loosely.holds _ (by decide)) hargument)
    exact .again rfl hfirst (ih fun f hf => h f (List.mem_cons_of_mem _ hf))

/-- The arguments of a call, up to the closing parenthesis. -/
theorem reads_arguments {es : List Expr} (h : ∀ e ∈ es, Readable e) (us : List Token) :
    Reads (branch (is .rParen) done (rule .argList)) (argumentTokens es ++ ⟨.rParen, ")"⟩ :: us)
      (argumentList es) (⟨.rParen, ")"⟩ :: us) := by
  cases es with
  | nil => exact .left rfl .done
  | cons e es =>
    have he := h e List.mem_cons_self
    have hmore := reads_more (fun f hf => h f (List.mem_cons_of_mem _ hf)) us
    have hfirst := he.reads_argument (moreTokens_next es us)
    rw [argumentTokens, List.append_assoc]
    exact .right (he.starts_loosely.holds _ (by decide))
      (.rule (.node (.seq hfirst hmore) (he.starts.pending_append _)))

theorem readable_call {arguments : List Expr} (h : Readable e) (he : 13 ≤ e.level)
    (harguments : ∀ a ∈ arguments, Readable a) : Readable (call e arguments) := by
  refine readable_of_trailer (x := ⟨.lParen, "("⟩) (n := .node .callTrailer _) h he (by decide)
    (fun us _ => ?_) rfl rfl rfl
  have harguments := reads_arguments harguments us
  rw [List.cons_append, List.append_assoc]
  exact .rule (.left rfl
    (.node (.seq (.of_next_nil rfl) (.seq harguments (.left rfl (.of_next_nil rfl)))) rfl))

theorem readable_power {base exponent : Expr} (hbase : Readable base)
    (hexponent : Readable exponent) (hlevel : 13 ≤ base.level) (hlevel' : 11 ≤ exponent.level) :
    Readable (power base exponent) := by
  obtain ⟨a, ns, hprimary, hparts⟩ := hbase.primary hlevel
  have hstarts := hbase.starts.loosen (show 12 ≤ base.level by omega)
  have hread := hprimary.readsAs_exponent hstarts (hexponent.reads 11 hlevel' (by omega))
  rw [← List.cons_append, ← hparts] at hread
  exact readable_of_level (m := 12) rfl (Nat.le_refl 12) (by decide)
    (hstarts.append (.cons (by decide) _)) hread

/-- An operator in front of an operand, which is read by the rule of its level again. -/
theorem readable_unary {op : UnaryOperator} (h : Readable e) (hlevel : op.level ≤ e.level) :
    Readable (unary op e) := by
  have hstarts : Starts op.level (op.token :: e.tokens) := by
    cases op <;> exact ⟨_, _, rfl, by decide, Kind.noConfusion⟩
  have hread : ReadsAs (rule (ofLevel op.level)) op.level (op.token :: e.tokens)
      (.node op.node [.token op.token, e.tree]) := by
    intro us hus
    have hread := h.reads op.level hlevel (by cases op <;> decide) us hus
    cases op <;> exact .rule (.left rfl (.node (.seq (.of_next_nil rfl) hread) rfl))
  have hlow : op.level ≤ 12 ∧ op.level ∉ chainLevels := by cases op <;> decide
  exact readable_of_level rfl hlow.1 hlow.2 hstarts hread

theorem readable_binary {op : Operator} {left right : Expr} (hleft : Readable left)
    (hright : Readable right) (hlevel : op.level ≤ left.level)
    (hlevel' : op.level + 1 ≤ right.level) : Readable (binary op left right) := by
  have hten : op.level ≤ 10 := by cases op <;> decide
  have hchained := (hleft.chained op.level (level_mem op) hlevel).append
    (hright.starts.loosen hlevel') (hright.reads _ hlevel' (by omega))
  have hstarts := (hleft.starts.loosen hlevel).append (beside_operator op right.tokens)
  refine readable_of_reads (e := binary op left right) (m := op.level)
    (Nat.min_eq_left (show op.level ≤ 12 by omega)).symm hstarts
    (hchained.readsAs (level_mem op) hstarts) (fun _ => hchained) fun h => ?_
  have : 13 ≤ op.level := h
  omega

/-- A conditional expression goes on to the right. -/
theorem readable_ternary {condition otherwise : Expr} (h : Readable e)
    (hcondition : Readable condition) (hotherwise : Readable otherwise) (hlevel : 1 ≤ e.level)
    (hlevel' : 1 ≤ condition.level) : Readable (ternary e condition otherwise) := by
  have hstarts : Starts 0 (ternary e condition otherwise).tokens :=
    h.starts_loosely.append (.cons (by decide) _)
  refine readable_of_level (m := 0) rfl (Nat.zero_le 12) (by decide) hstarts fun us hus => ?_
  have hrest := hotherwise.reads 0 (Nat.zero_le _) (Nat.zero_le _) us hus
  have hmiddle := hcondition.reads 1 hlevel' (by omega)
    (⟨.elseKw, "else"⟩ :: (otherwise.tokens ++ us)) (Nat.zero_le _)
  have hfirst := h.reads 1 hlevel (by omega) (⟨.ifKw, "if"⟩ :: (condition.tokens ++
    ⟨.elseKw, "else"⟩ :: (otherwise.tokens ++ us))) (Nat.le_refl _)
  have htokens : (ternary e condition otherwise).tokens ++ us = e.tokens ++ ⟨.ifKw, "if"⟩ ::
      (condition.tokens ++ ⟨.elseKw, "else"⟩ :: (otherwise.tokens ++ us)) := by
    simp [tokens]
  refine .rule (.right (hstarts.holds us (by decide)) ?_)
  rw [htokens]
  exact hfirst.adopted (.left rfl (.enclose (.seq (.of_next_nil rfl) (.seq hmiddle
    (.seq (.left rfl (.of_next_nil rfl)) hrest))))) (h.starts.pending_append _)

theorem readable_within (h : Readable e) (m : Nat) : Readable (e.within m) := by
  unfold within
  split
  · exact readable_paren h
  · exact h

mutual

/-- With parentheses where they are needed, every expression is read as its tree. -/
theorem readable_fitted : (e : Expr) → Readable e.fitted
  | operand o => readable_operand o
  | paren e => readable_paren (readable_fitted e)
  | attr e name =>
    readable_attr (readable_within (readable_fitted e) 13) (level_within_of_le (by decide) _) name
  | call e arguments =>
    readable_call (readable_within (readable_fitted e) 13) (level_within_of_le (by decide) _)
      (readable_fittedAll arguments)
  | power base exponent =>
    readable_power (readable_within (readable_fitted base) 13)
      (readable_within (readable_fitted exponent) 11) (level_within_of_le (by decide) _)
      (level_within_of_le (by decide) _)
  | unary op e =>
    readable_unary (readable_within (readable_fitted e) op.level)
      (level_within_of_le (unary_level_le op) _)
  | binary op left right =>
    readable_binary (readable_within (readable_fitted left) op.level)
      (readable_within (readable_fitted right) (op.level + 1))
      (level_within_of_le (Nat.le_of_succ_le (operator_level_lt op)) _)
      (level_within_of_le (operator_level_lt op) _)
  | ternary e condition otherwise =>
    readable_ternary (readable_within (readable_fitted e) 1)
      (readable_within (readable_fitted condition) 1) (readable_fitted otherwise)
      (level_within_of_le (by decide) _) (level_within_of_le (by decide) _)

theorem readable_fittedAll : (es : List Expr) → ∀ e ∈ fittedAll es, Readable e
  | [] => List.forall_mem_nil _
  | e :: es => List.forall_mem_cons.2 ⟨readable_fitted e, readable_fittedAll es⟩

end

/-! ## Lines -/

/-- No statement with a word of its own starts like an expression. -/
theorem reads_choose {cases : List (Look × P)} {q : P} {as : List Tree} (hts : Starts 0 ts)
    (hcases : ∀ c ∈ cases, c.1 = atExec ∨ ∀ k ∈ starters 0, (c.1.may true).has k = false)
    (hq : Reads q ts as us) : Reads (choose cases q) ts as us := by
  induction cases with
  | nil => exact hq
  | cons c cases ih =>
    have hc : c.1.holds ts = false := by
      rcases hcases c List.mem_cons_self with hexec | hmay
      · rw [hexec]
        exact hts.not_exec
      · simpa using hts.holds [] hmay
    exact .right hc (ih fun d hd => hcases d (List.mem_cons_of_mem _ hd))

/-- An expression in a line of its own is a statement. -/
theorem Readable.reads_file (h : Readable e) (ending : String) :
    Reads (rule .file) (e.tokens ++ [⟨.newline, ending⟩])
      [.node .simpleStmt [.node .exprStmt [e.tree], .token ⟨.newline, ending⟩]] [] := by
  have hstarts := h.starts_loosely
  have hpending := h.starts.pending_append [⟨.newline, ending⟩]
  have hend : nextKind [⟨.newline, ending⟩] ∈ enders := (by decide : Kind.newline ∈ enders)
  have hline : Starts 0 (e.tokens ++ [⟨.newline, ending⟩]) :=
    hstarts.append (.cons ⟨rfl, (by decide : Kind.newline ∉ execOperands)⟩ [])
  have hvalue : Reads (rule .assignValue) _ [e.tree] [⟨.newline, ending⟩] :=
    .rule (.right (hstarts.holds _ (by decide)) ((h.reads_starOrTest hend).operand
      (.right rfl .done) hpending))
  have hexpr : Reads (rule .exprStmt) _ [.node .exprStmt [e.tree]] [⟨.newline, ending⟩] :=
    .rule (.node (.left (hstarts.holds _ (by decide))
      (.seq hvalue (.right rfl (.right rfl (.stop rfl))))) hpending)
  have hsmall : Reads (rule .smallStmt) _ [.node .exprStmt [e.tree]] [⟨.newline, ending⟩] :=
    .rule (reads_choose hline (by decide) hexpr)
  have hsimple : Reads (rule .simpleStmt) _
      [.node .simpleStmt [.node .exprStmt [e.tree], .token ⟨.newline, ending⟩]] [] :=
    .rule (.node (.seq hsmall (.seq (.stop rfl) (.left rfl (.of_next_nil rfl)))) hpending)
  have hstatement : Reads (rule .statement) _ _ [] := .rule (reads_choose hline (by decide) hsimple)
  exact .rule (.seq (.again (hstarts.holds _ (by decide))
    (reads_choose hline (by decide) hstatement) (.stop rfl)) (.of_pending rfl))

end

end Renumber.Expr
