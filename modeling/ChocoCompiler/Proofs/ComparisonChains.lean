import ChocoCompiler.Proofs.LexerSteps
import ChocoCompiler.Proofs.ParserMoves
import ChocoCompiler.Proofs.Precedence

/-!
# Chains of comparisons

Comparisons do not group: an expression that goes on with a comparison operator behind a comparison is
refused, and the error points at that operator (`parseExpr_comparisonChain`). The operands are written as
operands of a comparison must be, there may be any number of `not`s in front, and what follows the second
operator does not matter. `Parse.Fails x ts us e` is the counterpart of `Parse.Takes`: in front of `ts ++ us`,
the parser `x` reads `ts` and fails with the error `e` at the first token of `us`. The right operand of the
first operator ends before the second one, which holds less tightly than the loop around that operand asks for
(`expr_fails`).
-/

namespace ChocoCompiler

variable {τ : Type}

namespace BinaryOp

variable {op : BinaryOp}

theorem isPlain_sign (op : BinaryOp) : op.sign.isPlain = true := by cases op <;> rfl

theorem isComparison_sign (h : op.isComparison = true) : op.sign.isComparison = true := by
  cases op <;> first | rfl | cases h

theorem leftLevel_of_isComparison (h : op.isComparison = true) : op.leftLevel = 5 := by
  rw [leftLevel, if_pos h, level_of_isComparison h]

theorem power_of_isComparison (h : op.isComparison = true) : op.power = 9 := by
  rw [power_eq, level_of_isComparison h]

end BinaryOp

/-! ## Failing behind some terminals -/

namespace Parse

variable {α β : Type} {ts us vs : List Terminal} {e : SyntaxError}

/-- In front of `ts ++ us`, the parser reads `ts` and fails where `us` starts. -/
def Fails (x : Parse α) (ts us : List Terminal) (e : SyntaxError) : Prop :=
  ∀ ⦃c⦄, c.At (ts ++ us) → ∃ c', x c = .error ⟨c'.next.span, e⟩ c' ∧ c'.At us

namespace Fails

variable {x : Parse α} {f : α → Parse β} {Q : α → Prop}

theorem fail : Fails (Parse.fail e : Parse α) [] us e := fun c hc => ⟨c, rfl, hc⟩

theorem bind (hx : Fails x ts us e) : Fails (x >>= f) ts us e := by
  intro c hc
  obtain ⟨c', hx, hc'⟩ := hx hc
  refine ⟨c', ?_, hc'⟩
  show EStateM.bind x f c = _
  unfold EStateM.bind
  rw [hx]

theorem after (hx : Takes x ts (us ++ vs) Q) (hf : ∀ a, Q a → Fails (f a) us vs e) :
    Fails (x >>= f) (ts ++ us) vs e := by
  intro c hc
  rw [List.append_assoc] at hc
  obtain ⟨a, c₁, ha, hc₁, hQ⟩ := hx hc
  rw [run_bind ha]
  exact hf a hQ hc₁

theorem next {t : Terminal} (hx : Takes x [t] (ts ++ us) Q) (hf : ∀ a, Q a → Fails (f a) ts us e) :
    Fails (x >>= f) (t :: ts) us e := after hx hf

theorem look (hx : Takes x [] (ts ++ us) Q) (hf : ∀ a, Q a → Fails (f a) ts us e) :
    Fails (x >>= f) ts us e := after hx hf

theorem last (hx : Takes x ts us Q) (hf : ∀ a, Q a → Fails (f a) [] us e) : Fails (x >>= f) ts us e :=
  List.append_nil ts ▸ after hx hf

end Fails

/-! ## Comparisons -/

section Comparisons

variable {op op' : BinaryOp} {sub : Nat → Parse (Expr Tag)} {lhs : Expr Tag} {power m depth : Nat}
  {c : Cursor} {x y : Expr τ}

theorem extend_fails {Q : Expr Tag → Prop} (hop : op.isComparison = true) (hop' : op'.isComparison = true)
    (h : Takes (sub (op.power + 1)) ts (.kind op'.sign :: us) Q) :
    Fails (extend sub lhs (.binary op)) ts (.kind op'.sign :: us) .comparisonNotAssociative := by
  refine .last h fun rhs _ => .look .peek fun t ht => ?_
  have hkind : t.kind = op'.sign := (Token.terminal_eq_kind op'.isPlain_sign).1 ht
  rw [hkind, hop, BinaryOp.isComparison_sign hop']
  exact .fail

theorem climb_fails {k : Continuation} (hk : power ≤ k.power) (hx : Fails (extend sub lhs k) vs us e)
    (hc : c.At (.kind k.sign :: (vs ++ us))) (hm : c.rest.length ≤ m) :
    ∃ c', climb sub power m lhs c = .error ⟨c'.next.span, e⟩ c' ∧ c'.At us := by
  have hmoved := hc.moved k.sign_ne_eof
  have hlen := hc.length
  have hlen' := hmoved.length
  rw [List.length_cons] at hlen
  obtain ⟨m, rfl⟩ : ∃ m', m = m' + 1 := ⟨m - 1, by omega⟩
  rw [climb_succ hc, List.head?_cons, Option.bind_some, Terminal.continuation?, k.ofToken?_sign]
  dsimp only
  rw [if_neg (Nat.not_lt.2 hk), run_advance]
  exact hx.bind hmoved

/-- A comparison in front of another operator is refused wherever a comparison can stand. -/
theorem expr_fails (hop : op.isComparison = true) (hop' : op'.isComparison = true)
    (hx : x.Written false op.leftLevel ts) (hy : y.Written false (op.level + 1) us) (hp : power ≤ 9)
    (hd : (ts ++ .kind op.sign :: us).length ≤ depth) :
    Fails (expr depth power) (ts ++ .kind op.sign :: us) (.kind op'.sign :: vs) .comparisonNotAssociative := by
  intro c hc
  rw [List.length_append, List.length_cons] at hd
  rw [List.append_assoc, List.cons_append] at hc
  obtain ⟨depth, rfl⟩ : ∃ d, depth = d + 1 := ⟨depth - 1, by omega⟩
  have hpower := BinaryOp.power_of_isComparison hop
  have hpower' := BinaryOp.power_of_isComparison hop'
  rw [BinaryOp.leftLevel_of_isComparison hop] at hx
  rw [BinaryOp.level_of_isComparison hop] at hy
  have hfollow : ∀ {op : BinaryOp} {ws}, op.isComparison = true → CanFollow 5 (.kind op.sign :: ws) := fun h =>
    .sign (k := .binary _) (Nat.le_of_eq (BinaryOp.leftLevel_of_isComparison h))
  have hhalts : Halts (op.power + 1) (.kind op'.sign :: vs) := by
    intro k hk
    have hk : Continuation.ofToken? (Continuation.binary op').sign = some k := hk
    rw [Continuation.ofToken?_sign] at hk
    cases hk
    show op'.power < op.power + 1
    omega
  -- the left operand is read by the loop that takes the first operator
  have hpower_le : power ≤ 2 * 5 + 1 := by omega
  have hdepth : ts.length ≤ depth + 1 := by omega
  obtain ⟨lhs, c₁, hlhs, hclimb⟩ := hx.spans hpower_le (hfollow hop) hdepth hc
  obtain ⟨m, l, c₂, hm, hc₂, -, hlen⟩ := hclimb _ (Nat.le_refl _)
  have hright : Takes (expr depth (op.power + 1)) us (.kind op'.sign :: vs) (·.bare = y.bare) :=
    hy.spans.takes hy.ne_nil (by omega) (hfollow hop') hhalts (by omega)
  obtain ⟨c', herror, hc'⟩ := climb_fails (k := .binary op) (hpower ▸ hp) (extend_fails hop hop' hright) hc₂ hlen
  refine ⟨c', ?_, hc'⟩
  rw [expr, run_bind hlhs, run_remaining, hm, herror]

theorem not_fails (h : Fails (expr depth UnaryOp.not.power) ts us e) :
    Fails (expr (depth + 1) power) (.kind .kwNot :: ts) us e := by
  refine .bind (.next (.advance (by simp)) fun t ht => ?_)
  have hk := Token.kind_of_terminal ht
  simp only [Token.literal?_of_terminal ht rfl, hk]
  exact h.bind

theorem nots_fail (n : Nat) (hp : power ≤ 9)
    (h : ∀ power ≤ 9, ∀ depth, ts.length ≤ depth → Fails (expr depth power) ts us e)
    (hd : (List.replicate n (Terminal.kind .kwNot) ++ ts).length ≤ depth) :
    Fails (expr depth power) (List.replicate n (.kind .kwNot) ++ ts) us e := by
  induction n generalizing depth power with
  | zero => exact h power hp depth hd
  | succ n ih =>
    rw [List.replicate_succ, List.cons_append] at hd ⊢
    rw [List.length_cons] at hd
    obtain ⟨depth, rfl⟩ : ∃ d, depth = d + 1 := ⟨depth - 1, by omega⟩
    exact not_fails (ih (by decide) (by omega))

end Comparisons

end Parse

/-! ## Whole texts -/

theorem Cursor.next_eq_of_ahead {c : Cursor} {t : Token} {ts : List Token} (h : c.ahead = t :: ts) :
    c.next = t := by
  unfold ahead at h
  unfold next
  cases hr : c.rest with
  | nil =>
    rw [hr] at h
    exact (List.cons.inj h).1
  | cons u us =>
    rw [hr] at h
    exact (List.cons.inj h).1

/-- A failure in front of a token is reported there. -/
theorem parseWith_fails {α : Type} {x : Parse α} {ts us : List Terminal} {e : SyntaxError} {source : String}
    {front rest : List Token} {tok : Token} (hx : Parse.Fails x ts us e)
    (hmoves : Parse.Moves (fun _ => True) x) (h : readTokens source = .ok (front ++ tok :: rest))
    (hfront : front.map Token.terminal = ts) (hrest : (tok :: rest).map Token.terminal = us)
    (names : NameTable) : (parseWith x names source).1 = .error ⟨tok.span, .grammatical e⟩ := by
  have hstart := (readTokens_ended h).at_start names
  rw [List.map_append, hfront, hrest] at hstart
  obtain ⟨c, hrun, hc⟩ := hx hstart
  -- as many tokens are left as there are behind `front`
  have hsuffix := hmoves.ahead_suffix h names
  rw [Parse.stop, hrun] at hsuffix
  have hlen : c.ahead.length = (tok :: rest).length := by
    rw [Cursor.ahead, List.length_append, List.length_singleton, ← hc.length, ← hrest, List.length_map]
  have hahead : c.ahead = tok :: rest :=
    (List.suffix_of_suffix_length_le hsuffix (List.suffix_append ..) (Nat.le_of_eq hlen)).eq_of_length hlen
  unfold parseWith Parse.run
  simp only [h, hrun, Cursor.next_eq_of_ahead hahead]
  rfl

section Scanning

variable {l inner : Layout} {rest : List Char} {t : Terminal} {ts : List Terminal}

theorem Scans.text (pos : Nat) (hl : l.enter = some ([], inner)) (hs : Stops rest) (ht : t.isWritable = true) :
    ∃ tok, Scans pos l t.text rest [tok] inner ∧ tok.terminal = t := by
  obtain ⟨k, ⟨c, cs, htext, hc, hscan⟩, hterminal⟩ := t.isLexeme_text ht
  rw [htext] at hterminal ⊢
  exact ⟨_, .of_cut (.token hc hl (hscan rest hs)), hterminal _⟩

theorem Scans.spelled (pos : Nat) (hl : l.enter = some ([], inner)) (hs : Stops rest) (hne : ts ≠ [])
    (hw : ∀ t ∈ ts, t.isWritable = true) :
    ∃ toks, Scans pos l (spell ts) rest toks inner ∧ toks.map Token.terminal = ts := by
  induction ts generalizing l pos with
  | nil => exact absurd rfl hne
  | cons t ts ih =>
    obtain ⟨ht, hw⟩ := List.forall_mem_cons.1 hw
    cases ts with
    | nil =>
      obtain ⟨tok, hscans, htok⟩ := Scans.text pos hl hs ht
      exact ⟨[tok], spell_singleton t ▸ hscans, congrArg (· :: []) htok⟩
    | cons u us =>
      have hf := Layout.fresh_of_enter hl
      have hspace : inner.space = inner := if_neg (by simp [hf])
      have hstops : Stops ([' '] ++ spell (u :: us) ++ rest) := .space
      obtain ⟨tok, htext, htok⟩ := Scans.text pos hl hstops ht
      obtain ⟨toks, hscans, htoks⟩ := ih (pos + byteLength t.text + byteLength [' '])
        (Layout.enter_of_not_fresh hf) (List.cons_ne_nil _ _) hw
      refine ⟨tok :: toks, ?_, congrArg₂ _ htok htoks⟩
      rw [spell_cons_cons]
      exact htext.append (.cons .space (hspace.symm ▸ hscans))

end Scanning

/-- The operator is a sign or word of its own in front of the text. -/
def BinaryOp.EndsBefore : BinaryOp → List Char → Prop
  | .less, rest | .greater, rest => rest.head? ≠ some '='
  | .is, rest => ∀ c ∈ rest.head?, Lexeme.isWordPart c = false
  | _, _ => True

theorem BinaryOp.EndsBefore.exists_scan {op : BinaryOp} {rest : List Char} (h : op.EndsBefore rest)
    (hop : op.isComparison = true) : ∃ c cs, op.sign.spelling.toList = c :: cs ∧ isSolid c = true ∧
      Lexeme.scan c (cs ++ rest) = .ok ⟨op.sign, cs.length⟩ := by
  cases op with
  | less | greater => exact ⟨_, _, rfl, by decide, congrArg _ (if_neg h)⟩
  | is =>
    refine ⟨'i', ['s'], rfl, by decide, ?_⟩
    rw [Lexeme.scan_of_isWordStart (by decide), takeWhile_append_stop (List.all_eq_true.1 rfl) h]
    rfl
  | eq | notEq | lessEq | greaterEq => exact ⟨_, _, rfl, by decide, rfl⟩
  | _ => cases hop

theorem tokens_spell_operator {op : BinaryOp} {ts : List Terminal} {rest : List Char} (hne : ts ≠ [])
    (hw : ∀ t ∈ ts, t.isWritable = true) (hop : op.isComparison = true) (hrest : op.EndsBefore rest) :
    ∃ front more, (lex (String.ofList (spell ts ++ ' ' :: (op.sign.spelling.toList ++ rest)))).tokens =
        front ++ ⟨op.sign, op.sign.spelling.toList,
          ⟨byteLength (spell ts) + 1, byteLength op.sign.spelling.toList⟩⟩ :: more ∧
      front.map Token.terminal = ts := by
  obtain ⟨c, cs, htext, hc, hscan⟩ := hrest.exists_scan hop
  have hstops : Stops ([' '] ++ (c :: cs) ++ rest) := .space
  obtain ⟨front, hscans, hfront⟩ := Scans.spelled 0 (Layout.enter_level []) hstops hne hw
  have hsteps := hscans.append (.cons .space (.of_cut (.token hc (Layout.enter_of_not_fresh rfl) hscan)))
  have hsource : spell ts ++ ' ' :: (op.sign.spelling.toList ++ rest) = spell ts ++ ([' '] ++ (c :: cs)) ++ rest := by
    rw [htext, List.append_assoc]
    rfl
  have hlex := (congrArg (lexFrom 0 {}) (String.toList_ofList.trans hsource)).trans hsteps.lexFrom_eq
  have htokens := congrArg Lexed.tokens hlex
  rw [Lexed.tokens_after, List.append_assoc, Nat.zero_add, ← htext] at htokens
  exact ⟨front, _, htokens, hfront⟩

section Chains

variable (parens : Expr τ → Nat) (n : Nat) (x : Expr τ) (op : BinaryOp) (y : Expr τ)

/-- The terminals of a comparison with some `not`s in front of it. -/
def comparisonTerminals : List Terminal :=
  List.replicate n (.kind .kwNot) ++
    (x.terminals parens op.leftLevel ++ .kind op.sign :: y.terminals parens (op.level + 1))

/-- The text of a comparison that goes on with one more operator and any text. -/
def comparisonChain (op' : BinaryOp) (rest : List Char) : List Char :=
  spell (comparisonTerminals parens n x op y) ++ ' ' :: (op'.sign.spelling.toList ++ rest)

variable {x y}

theorem isWritable_comparisonTerminals (hx : x.isWritable = true) (hy : y.isWritable = true) :
    ∀ t ∈ comparisonTerminals parens n x op y, t.isWritable = true := by
  have hsign : (Terminal.kind op.sign).isWritable = true := by cases op <;> rfl
  simp only [comparisonTerminals, List.forall_mem_append, List.forall_mem_cons]
  refine ⟨fun t ht => ?_, (x.written_terminals false parens _).isWritable hx, hsign,
    (y.written_terminals false parens _).isWritable hy⟩
  rw [List.eq_of_mem_replicate ht]
  rfl

variable {parens n op} {op' : BinaryOp}

theorem comparisonTerminals_ne_nil : comparisonTerminals parens n x op y ≠ [] := by
  simp [comparisonTerminals]

theorem loneExpression_fails (hop : op.isComparison = true) (hop' : op'.isComparison = true)
    {us : List Terminal} : Parse.Fails .loneExpression (comparisonTerminals parens n x op y)
      (.kind op'.sign :: us) .comparisonNotAssociative := by
  refine .bind (.look .remaining fun m hm => Parse.nots_fail n (Nat.zero_le _) (fun power hp depth hd => ?_) ?_)
  · exact Parse.expr_fails hop hop' (x.written_terminals false parens _) (y.written_terminals false parens _) hp hd
  · rw [List.length_append, List.length_cons] at hm
    show (comparisonTerminals parens n x op y).length ≤ m
    omega

/-- A chain of comparisons is refused at its second operator: whatever text has the terminals of a comparison, an
operator and any more; and so the text of a comparison, an operator and any text with which it can be lexed. -/
theorem parseExpr_comparisonChain (parens : Expr τ → Nat) (n : Nat) (x y : Expr τ) (op op' : BinaryOp)
    (hop : op.isComparison = true) (hop' : op'.isComparison = true) (names : NameTable) :
    (∀ source front tok rest, readTokens source = .ok (front ++ tok :: rest) →
        front.map Token.terminal = comparisonTerminals parens n x op y → tok.kind = op'.sign →
        (parseExpr names source).1 = .error ⟨tok.span, .grammatical .comparisonNotAssociative⟩) ∧
      (x.isWritable = true → y.isWritable = true → ∀ rest, op'.EndsBefore rest →
        (lex (String.ofList (comparisonChain parens n x op y op' rest))).error = none →
        (parseExpr names (String.ofList (comparisonChain parens n x op y op' rest))).1 =
          .error ⟨⟨byteLength (spell (comparisonTerminals parens n x op y)) + 1,
            byteLength op'.sign.spelling.toList⟩, .grammatical .comparisonNotAssociative⟩) := by
  have htokens : ∀ source front tok rest, readTokens source = .ok (front ++ tok :: rest) →
      front.map Token.terminal = comparisonTerminals parens n x op y → tok.kind = op'.sign →
      (parseExpr names source).1 = .error ⟨tok.span, .grammatical .comparisonNotAssociative⟩ := by
    intro source front tok rest h hfront hkind
    have htok : tok.terminal = .kind op'.sign := (Token.terminal_eq_kind op'.isPlain_sign).2 hkind
    exact parseWith_fails (loneExpression_fails hop hop') Parse.loneExpression_moves h hfront
      (congrArg (· :: _) htok) names
  refine ⟨htokens, fun hx hy rest hrest hlex => ?_⟩
  have hw := isWritable_comparisonTerminals parens n op hx hy
  obtain ⟨front, more, hlexed, hfront⟩ := tokens_spell_operator comparisonTerminals_ne_nil hw hop' hrest
  exact htokens _ front _ more ((readTokens_eq_ok hlex).trans (congrArg Except.ok hlexed)) hfront rfl

end Chains

/-- Operands of a comparison: a sum, and a comparison, which stands in parentheses there. -/
def sumOperand : Expr Unit := .binary () .add (.ident () ⟨"a", default⟩) (.literal () (.int 1))

def comparedOperand : Expr Unit := .binary () .eq (.ident () ⟨"b", default⟩) (.ident () ⟨"c", default⟩)

theorem sumOperand_chain_refused :
    (parseExpr .initial "not not a + 1 < ( b == c ) is) ]").1 =
        .error ⟨⟨27, 2⟩, .grammatical .comparisonNotAssociative⟩ ∧
      (parseExpr .initial "a+1!=(b==c)>=d").1 = .error ⟨⟨11, 2⟩, .grammatical .comparisonNotAssociative⟩ := by
  have hrest : BinaryOp.is.EndsBefore [')', ' ', ']'] := by
    rintro c ⟨⟩
    decide
  have htext : String.ofList (comparisonChain (fun _ => 0) 2 sumOperand .less comparedOperand .is [')', ' ', ']']) =
      "not not a + 1 < ( b == c ) is) ]" := by decide +kernel
  have hspan : byteLength (spell (comparisonTerminals (fun _ => 0) 2 sumOperand .less comparedOperand)) = 26 := by
    decide +kernel
  have hdense : readTokens "a+1!=(b==c)>=d" = .ok (lex "a+1!=(b==c)>=d").tokens :=
    readTokens_eq_ok (by decide +kernel)
  have htokens : (lex "a+1!=(b==c)>=d").tokens = (lex "a+1!=(b==c)>=d").tokens.take 9 ++
      ⟨.greaterEq, ['>', '='], ⟨11, 2⟩⟩ :: (lex "a+1!=(b==c)>=d").tokens.drop 10 := by decide +kernel
  constructor
  · have h := (parseExpr_comparisonChain (fun _ => 0) 2 sumOperand comparedOperand .less .is rfl rfl
      .initial).2 (by decide +kernel) (by decide +kernel) _ hrest (by decide +kernel)
    rw [htext, hspan] at h
    exact h
  · exact (parseExpr_comparisonChain (fun _ => 0) 0 sumOperand comparedOperand .notEq .greaterEq rfl rfl
      .initial).1 _ _ _ _ (hdense.trans (congrArg _ htokens)) (by decide +kernel) rfl

end ChocoCompiler
