import ChocoCompiler.Proofs.Precedence
import Mathlib.Data.List.Chain

/-!
# What the expression parser accepts

The parser goes by levels with one exception: after a sign it takes a negation without parentheses, however
much the sign asks for, and the negation then takes all that a negation can take. So what has been read
is written in the loose grammar (`Parse.expression_reads`). Where no parentheses group, the text of the
expression by the levels is what has been read just if no negation stands after a sign that asks for more
(`parseExpr_terminals_iff`); `a * not b` is such a text.
-/

namespace ChocoCompiler

variable {τ : Type}

/-! ## Reading up to a place -/

namespace Parse

variable {α β : Type}

/-- If the parser succeeds in front of `ts`, it has read some of them, for which, and for the rest of them,
`Q` holds of the result. -/
def Reads (x : Parse α) (ts : List Terminal) (Q : α → List Terminal → List Terminal → Prop) : Prop :=
  ∀ ⦃c a c'⦄, c.At ts → x c = .ok a c' → ∃ read rest, ts = read ++ rest ∧ c'.At rest ∧ Q a read rest

namespace Reads

variable {x : Parse α} {f : α → Parse β} {t : Terminal} {ts : List Terminal}
  {Q R : α → List Terminal → List Terminal → Prop} {S : β → List Terminal → List Terminal → Prop}

theorem bind (hx : Reads x ts R)
    (hf : ∀ a read rest, ts = read ++ rest → R a read rest →
      Reads (f a) rest fun b more => S b (read ++ more)) :
    Reads (x >>= f) ts S := by
  intro c b c' hc h
  obtain ⟨a, c₁, ha, h⟩ := run_bind_eq_ok.1 h
  obtain ⟨read, rest, rfl, hc₁, hR⟩ := hx hc ha
  obtain ⟨more, rest, rfl, hc', hS⟩ := hf a read rest rfl hR hc₁ h
  exact ⟨read ++ more, rest, (List.append_assoc ..).symm, hc', hS⟩

theorem mono (hx : Reads x ts R) (h : ∀ a read rest, R a read rest → Q a read rest) : Reads x ts Q := by
  intro c a c' hc ha
  obtain ⟨read, rest, he, hc', hR⟩ := hx hc ha
  exact ⟨read, rest, he, hc', h a read rest hR⟩

theorem ofYields {Q : α → List Terminal → Prop} (hx : Yields x Q) : Reads x ts fun a read _ => Q a read := by
  intro c a c' hc ha
  obtain ⟨t, us, rfl⟩ := hc.exists_cons
  exact hx hc trivial ha

theorem yields {Q : α → List Terminal → Prop} (hx : ∀ ts, Reads x ts R)
    (h : ∀ a read rest, R a read rest → Q a read) : Yields x Q := by
  intro c t ts a c' hc _ ha
  obtain ⟨read, rest, he, hc', hR⟩ := hx _ hc ha
  exact ⟨read, rest, he, hc', h a read rest hR⟩

theorem pure {a : α} (h : Q a [] ts) : Reads (Pure.pure a) ts Q := by
  intro c a c' hc ha
  cases ha
  exact ⟨[], ts, rfl, hc, h⟩

theorem node {span : Span} {make : Tag → Expr Tag} {Q : Expr Tag → List Terminal → List Terminal → Prop}
    (h : ∀ tag, Q (make tag) [] ts) : Reads (Parse.node span make) ts Q := by
  intro c e c' hc he
  cases he
  exact ⟨[], ts, rfl, ⟨hc.terminals, hc.eof, hc.inside⟩, h _⟩

theorem fail {e : SyntaxError} : Reads (Parse.fail e) ts Q := by
  intro c a c' _ h
  cases h

theorem peek {f : Token → Parse α} (hf : ∀ t : Token, ts.head? = some t.terminal → Reads (f t) ts Q) :
    Reads (Parse.peek >>= f) ts Q := by
  intro c a c' hc h
  obtain ⟨t, us, rfl⟩ := hc.exists_cons
  exact hf c.next (congrArg some hc.next.symm) hc h

theorem moved {c c' : Cursor} {a : α} (hx : Reads x ts fun a read => Q a (t :: read))
    (hc : c.At (t :: ts)) (ht : t ≠ .kind .eof) (h : x c.moved = .ok a c') :
    ∃ read rest, t :: ts = read ++ rest ∧ c'.At rest ∧ Q a read rest := by
  obtain ⟨read, rest, rfl, hc', hQ⟩ := hx (hc.moved ht) h
  exact ⟨t :: read, rest, rfl, hc', hQ⟩

end Reads

end Parse

/-! ## Levels that have been reached -/

theorem Expr.Written.antitone {loose : Bool} {q q' : Nat} {e : Expr τ} {ts : List Terminal}
    (h : e.Written loose q ts) (hq : q' ≤ q) : e.Written loose q' ts := by
  cases h with
  | literal t v => exact .literal t v
  | ident t x => exact .ident t x
  | list t items h => exact .list t items h
  | call t f items h => exact .call t f items h
  | index t hq' he hi => exact .index t (by omega) he hi
  | unary t hq' ho he => exact .unary t (by omega) ho he
  | binary t hq' hl ho hr => exact .binary t (by omega) hl ho hr
  | cond t hq' ha hc hb => exact .cond t (by omega) ha hc hb
  | group he => exact .group he

/-- If something comes next that takes an expression as its first part, one of level `q` will do. -/
def TakesLevel (q : Nat) (us : List Terminal) : Prop :=
  ∀ k, us.head?.bind Terminal.continuation? = some k → k.leftLevel ≤ q

theorem Continuation.leftLevel_le (k : Continuation) : k.leftLevel ≤ 8 := by
  cases k with
  | conditional | index => decide
  | binary op => cases op <;> decide

theorem Terminal.continuation?_eq_some {t : Terminal} {k : Continuation} :
    t.continuation? = some k ↔ t = .kind k.sign := by
  constructor
  · intro h
    cases t with
    | name | literal => cases h
    | kind k' => cases k' <;> cases h <;> rfl
  · rintro rfl
    exact k.ofToken?_sign

section Halts

variable {us : List Terminal}

theorem Halts.takesLevel_unary {op : UnaryOp} (h : Halts op.power us) : TakesLevel op.level us := by
  intro k hk
  have hpower := h k hk
  rw [k.power_eq, op.power_eq] at hpower
  cases k with
  | conditional => cases op <;> decide
  | index => cases op <;> simp [Continuation.level, UnaryOp.level] at hpower
  | binary op' =>
    have hle : op'.leftLevel ≤ op'.level + 1 := by cases op' <;> decide
    simp only [Continuation.level, Continuation.leftLevel] at hpower ⊢
    omega

theorem Halts.takesLevel_binary {op : BinaryOp} (h : Halts (op.power + 1) us)
    (hc : ∀ op', op.isComparison = true → us.head?.bind Terminal.continuation? = some (.binary op') →
      op'.isComparison = false) : TakesLevel op.level us := by
  intro k hk
  have hpower := h k hk
  rw [k.power_eq, op.power_eq] at hpower
  cases k with
  | conditional => cases op <;> decide
  | index => cases op <;> simp [Continuation.level, BinaryOp.level] at hpower
  | binary op' =>
    simp only [Continuation.level, Continuation.leftLevel, BinaryOp.leftLevel] at hpower ⊢
    split_ifs with hop'
    · have hne : op.isComparison = false := by
        by_contra hop
        rw [hc op' (by simpa using hop) hk] at hop'
        cases hop'
      have hlevel := BinaryOp.level_of_isComparison hop'
      have hlevel' : op.level ≠ 4 := by cases op <;> first | decide | cases hne
      omega
    · omega

theorem Halts.takesLevel_conditional (h : Halts 1 us) : TakesLevel 0 us := by
  intro k hk
  have hpower := h k hk
  rw [k.power_eq] at hpower
  omega

end Halts

/-! ## The parser -/

namespace Parse

/-- An expression has been read where `power` was asked for, and nothing comes next that it should have
taken. -/
def IsOperand (power : Nat) (e : Expr Tag) (read rest : List Terminal) : Prop :=
  (∃ q, e.OperandAt true (power / 2) q ∧ e.Written true q read) ∧ Halts power rest

/-- An expression has been read that may have to be taken by what comes next. -/
def IsBegun (power : Nat) (e : Expr Tag) (read rest : List Terminal) : Prop :=
  ∃ q, e.Written true q read ∧ TakesLevel q rest ∧
    (power / 2 ≤ q ∨ e.isNot = true ∧ q = UnaryOp.not.level)

theorem IsOperand.written {power : Nat} {e : Expr Tag} {read rest : List Terminal}
    (h : IsOperand power e read rest) (hp : power / 2 ≤ 3) : e.Written true (power / 2) read := by
  obtain ⟨⟨q, rfl | ⟨-, -, rfl⟩, hw⟩, -⟩ := h
  · exact hw
  · exact hw.antitone hp

theorem IsBegun.isOperand {power : Nat} {e : Expr Tag} {read rest : List Terminal}
    (h : IsBegun power e read rest) (hr : Halts power rest) : IsOperand power e read rest := by
  obtain ⟨q, hw, -, hq | ⟨hnot, rfl⟩⟩ := h
  · exact ⟨⟨power / 2, .inl rfl, hw.antitone hq⟩, hr⟩
  · exact ⟨⟨_, .inr ⟨rfl, hnot, rfl⟩, hw⟩, hr⟩

theorem IsBegun.stop {power : Nat} {e : Expr Tag} {read ts : List Terminal} (h : IsBegun power e read ts)
    (hr : Halts power ts) : Reads (pure e) ts fun e more => IsOperand power e (read ++ more) :=
  .pure (by rw [List.append_nil]; exact h.isOperand hr)

section sub

variable {sub : Nat → Parse (Expr Tag)} {power : Nat} {ts : List Terminal}

/-- What is asked of the parser of inner expressions. -/
def ReadsOperands (sub : Nat → Parse (Expr Tag)) : Prop :=
  ∀ power ≤ 15, ∀ ts, Reads (sub power) ts (IsOperand power)

theorem ReadsOperands.yields (hs : ReadsOperands sub) : Yields (sub 0) fun e ts => e.Written true 0 ts :=
  Reads.yields (hs 0 (by decide)) fun _ _ _ h => h.written (by decide)

theorem named_yields (hs : ReadsOperands sub) {t : Token} :
    Yields (named sub t) fun e ts => e.Written true 9 (.name t.name :: ts) := by
  refine .bind .enterName fun x ts hx => ?_
  obtain ⟨hx, rfl⟩ := hx
  rw [← hx]
  refine .isAt rfl ?_ ?_
  · refine .advance (by rintro _ rfl; simp) fun paren hparen => ?_
    rw [hparen]
    refine .bind (.commaList hs.yields) fun args ts hargs => .bind (.expect rfl (by decide)) fun _ us hus =>
      YieldsAt.node.mono ?_
    rintro _ _ ⟨⟨tag, rfl⟩, rfl⟩
    obtain ⟨items, rfl, rfl, hitems⟩ := hargs
    subst hus
    exact .call tag x items hitems
  · rw [if_neg Bool.false_ne_true]
    refine YieldsAt.node.mono ?_
    rintro _ _ ⟨⟨tag, rfl⟩, rfl⟩
    exact .ident tag x

theorem list_yields (hs : ReadsOperands sub) {t : Token} :
    Yields (do
      let items ← commaList t.span .rbracket (sub 0)
      let close ← expect .rbracket
      node (t.span.cover close.span) (.list · items)) fun e ts =>
        e.Written true 9 (.kind .lbracket :: ts) := by
  refine .bind (.commaList hs.yields) fun args ts hargs => .bind (.expect rfl (by decide)) fun _ us hus =>
    YieldsAt.node.mono ?_
  rintro _ _ ⟨⟨tag, rfl⟩, rfl⟩
  obtain ⟨items, rfl, rfl, hitems⟩ := hargs
  subst hus
  exact .list tag items hitems

theorem group_yields (hs : ReadsOperands sub) {t : Token} :
    Yields (do
      let e ← sub 0
      if ← take .rparen then return e else failAt t.span .unmatchedParentheses) fun e ts =>
        e.Written true 9 (.kind .lparen :: ts) :=
  .bind hs.yields fun e ts he => .take rfl (by decide) (.pure (.group he)) .failAt

theorem unary_reads (hs : ReadsOperands sub) (hp : power ≤ 15) {t : Token} {op : UnaryOp} :
    Reads (unary sub t op) ts fun e read => IsBegun power e (.kind op.sign :: read) := by
  have hpower : op.power ≤ 15 := by cases op <;> decide
  refine .bind (hs op.power hpower ts) fun e read rest _ he => .node fun tag => ?_
  obtain ⟨⟨q, hq, hw⟩, hrest⟩ := he
  have hlevel : op.power / 2 = op.level := by cases op <;> rfl
  rw [hlevel] at hq
  rw [List.append_nil]
  refine ⟨op.level, .unary tag (Nat.le_refl _) hq hw, hrest.takesLevel_unary, ?_⟩
  cases op with
  | neg => exact .inl (by simp only [UnaryOp.level]; omega)
  | not => exact .inr ⟨rfl, rfl⟩

theorem operand_reads (hs : ReadsOperands sub) (hp : power ≤ 15) :
    Reads (operand sub) ts (IsBegun power) := by
  intro c e c' hc h
  obtain ⟨t, us, rfl⟩ := hc.exists_cons
  have hnext := hc.next
  have htight : ∀ {x : Parse (Expr Tag)}, (Yields x fun e read => e.Written true 9 (t :: read)) →
      Reads x us fun e read => IsBegun power e (t :: read) := fun hx =>
    (Reads.ofYields hx).mono fun e read rest hw =>
      ⟨9, hw, fun k _ => Nat.le_trans k.leftLevel_le (by decide), .inl (by omega)⟩
  rw [operand, run_advance] at h
  cases hl : c.next.literal? with
  | some r =>
    simp only [hl] at h
    cases r with
    | error e => cases h
    | ok v =>
      obtain rfl : t = .literal v := hnext.symm.trans (Token.terminal_eq_literal.2 hl)
      refine Reads.moved (x := node c.next.span (.literal · v)) (htight (YieldsAt.node.mono ?_)) hc
        (by simp) h
      rintro _ _ ⟨⟨tag, rfl⟩, rfl⟩
      exact .literal tag v
  | none =>
    cases hk : c.next.kind with
    | identifier =>
      simp only [hl, hk] at h
      obtain rfl : t = .name c.next.name := hnext.symm.trans (Token.terminal_eq_name.2 ⟨hk, rfl⟩)
      exact Reads.moved (htight (named_yields hs)) hc (by simp) h
    | lparen =>
      simp only [hl, hk] at h
      obtain rfl := (hc.kind_iff rfl).1 hk
      exact Reads.moved (htight (group_yields hs)) hc (by simp) h
    | lbracket =>
      simp only [hl, hk] at h
      obtain rfl := (hc.kind_iff rfl).1 hk
      exact Reads.moved (htight (list_yields hs)) hc (by simp) h
    | minus =>
      simp only [hl, hk] at h
      obtain rfl := (hc.kind_iff rfl).1 hk
      exact Reads.moved (unary_reads hs hp) hc (by simp) h
    | kwNot =>
      simp only [hl, hk] at h
      obtain rfl := (hc.kind_iff rfl).1 hk
      exact Reads.moved (unary_reads hs hp) hc (by simp) h
    | _ =>
      simp only [hl, hk] at h
      cases h

theorem extend_reads (hs : ReadsOperands sub) {lhs : Expr Tag} {k : Continuation} {read : List Terminal}
    (hl : lhs.Written true k.leftLevel read) : Reads (extend sub lhs k) ts fun e more rest =>
      e.Written true k.level (read ++ .kind k.sign :: more) ∧ TakesLevel k.level rest := by
  cases k with
  | conditional =>
    refine .bind (hs conditionPower (by decide) ts) fun c ts us _ hc => ?_
    refine .bind (.ofYields (.expect rfl (by decide))) fun _ vs us _ hvs => ?_
    subst hvs
    refine .bind (hs 1 (by decide) us) fun b vs us _ hb => .node fun tag => ?_
    rw [List.append_nil]
    exact ⟨.cond tag rfl hl (hc.written (by decide)) (hb.written (by decide)), hb.2.takesLevel_conditional⟩
  | index =>
    refine .bind (hs 0 (by decide) ts) fun i ts us _ hi => ?_
    refine .bind (.ofYields (.expect rfl (by decide))) fun _ vs us _ hvs => .node fun tag => ?_
    subst hvs
    exact ⟨.index tag (Nat.le_refl _) hl (hi.written (by decide)), fun k _ => k.leftLevel_le⟩
  | binary op =>
    have hpower : op.power + 1 ≤ 15 := by cases op <;> decide
    have hlevel : (op.power + 1) / 2 = op.level + 1 := by cases op <;> rfl
    refine .bind (hs (op.power + 1) hpower ts) fun r ts us _ hr => ?_
    obtain ⟨⟨q, hq, hw⟩, hrest⟩ := hr
    rw [hlevel] at hq
    refine .peek fun t ht => ?_
    split_ifs with hcomp
    · exact .fail
    · refine .node fun tag => ?_
      rw [List.append_nil]
      refine ⟨.binary tag (Nat.le_refl _) hl hq hw, hrest.takesLevel_binary fun op' hop hop' => ?_⟩
      rw [ht, Option.bind_some, t.continuation?_terminal] at hop'
      by_contra hc
      have hkind : t.kind.isComparison = true := by
        cases hk : t.kind <;> rw [hk] at hop' <;> cases hop' <;> first | rfl | exact absurd rfl hc
      exact hcomp (by rw [hop, hkind, Bool.and_true])

/-- Every continuation that can be taken is taken. -/
theorem climb_reads (hs : ReadsOperands sub) : ∀ (n : Nat) {lhs : Expr Tag} {read ts : List Terminal},
    IsBegun power lhs read ts → ts.length ≤ n + 1 →
      Reads (climb sub power n lhs) ts fun e more => IsOperand power e (read ++ more)
  | 0, lhs, read, ts, hlhs, hn => by
    intro c e c' hc h
    cases h
    -- the bound is used up at the end only, where nothing can be taken any more
    obtain rfl : ts = [.kind .eof] := hc.eq_eof hn
    exact hlhs.stop (.of_none rfl) hc rfl
  | n + 1, lhs, read, ts, hlhs, hn => by
    intro c e c' hc h
    rw [climb_succ hc] at h
    cases hk : ts.head?.bind Terminal.continuation? with
    | none =>
      have hhalts : Halts power ts := fun k hk' => by rw [hk] at hk'; cases hk'
      rw [hk] at h
      exact hlhs.stop hhalts hc h
    | some k =>
      rw [hk] at h
      dsimp only at h
      split_ifs at h with hp
      · have hhalts : Halts power ts := fun k' hk' => by rw [hk] at hk'; cases hk'; exact hp
        exact hlhs.stop hhalts hc h
      · obtain ⟨t, us, rfl⟩ := hc.exists_cons
        obtain rfl : t = .kind k.sign := Terminal.continuation?_eq_some.1 hk
        obtain ⟨q, hw, htakes, -⟩ := hlhs
        have hne : Terminal.kind k.sign ≠ .kind .eof := by
          rintro he
          rw [he] at hk
          cases hk
        have hx : Reads (extend sub lhs k >>= climb sub power n) us fun e more =>
            IsOperand power e (read ++ .kind k.sign :: more) := by
          refine .bind (extend_reads hs (hw.antitone (htakes k hk))) fun e more rest he hext => ?_
          -- what has been taken is at the level of `k`, which the power asked for does not exceed
          have hlevel : power / 2 ≤ k.level := by
            rw [k.power_eq] at hp
            omega
          have hlen : rest.length ≤ n + 1 := by
            rw [he, List.length_cons, List.length_append] at hn
            omega
          refine (climb_reads hs n ⟨k.level, hext.1, hext.2, .inl hlevel⟩ hlen).mono fun e more' rest' h => ?_
          rwa [List.append_assoc, List.cons_append] at h
        exact hx.moved (Q := fun e more => IsOperand power e (read ++ more)) hc hne h

theorem expr_reads : ∀ depth, ReadsOperands (expr depth)
  | 0 => fun power _ ts => .fail
  | depth + 1 => fun power hp ts => by
    have hs := expr_reads depth
    refine .bind (operand_reads hs hp) fun lhs read rest _ hlhs => ?_
    intro c e c' hc h
    rw [run_remaining] at h
    exact climb_reads hs _ hlhs (Nat.le_of_eq hc.length) hc h

end sub

theorem expression_yields : Yields expression fun e ts => e.Written true 0 ts :=
  .bind .looks_remaining fun n ts hts => by
    subst hts
    exact (expr_reads n).yields

theorem Reads.expect_eof {ts : List Terminal} :
    Reads (expect .eof) ts fun _ read rest => read = [] ∧ rest = [.kind .eof] := by
  intro c t c' hc h
  obtain ⟨u, us, rfl⟩ := hc.exists_cons
  obtain ⟨_, _, hpeek, h⟩ := run_bind_eq_ok.1 h
  cases hpeek
  split_ifs at h with hk
  · obtain rfl := (hc.kind_iff rfl).1 (beq_iff_eq.1 hk)
    obtain rfl := hc.eq_nil
    cases h
    have hmoved : c.moved.At [.kind .eof] := by rwa [hc.moved_eof]
    exact ⟨[], _, rfl, hmoved, rfl, rfl⟩
  · cases h

theorem loneExpression_reads {ts : List Terminal} :
    Reads loneExpression ts fun e read rest =>
      (∃ us, e.Written true 0 us ∧ (read = us ∨ read = us ++ [.kind .newline])) ∧ rest = [.kind .eof] := by
  refine .bind (.ofYields expression_yields) fun e us _ _ hw => ?_
  refine .bind (.ofYields (.taken rfl (by decide))) fun b vs _ _ hvs => ?_
  refine .bind .expect_eof fun _ ws rest _ hws => .pure ?_
  obtain ⟨rfl, rfl⟩ := hws
  subst hvs
  cases b with
  | false => exact ⟨⟨us, hw, .inl (by simp)⟩, rfl⟩
  | true => exact ⟨⟨us, hw, .inr (by simp)⟩, rfl⟩

end Parse

theorem Expr.Written.isExprSign {loose : Bool} {q : Nat} {e : Expr τ} {ts : List Terminal}
    (h : e.Written loose q ts) {k : TokenKind} (hk : .kind k ∈ ts) : k.isExprSign = true := by
  rcases h.brings _ hk with ⟨k', hk', hsign⟩ | ⟨e', -, hroot⟩
  · cases hk'
    exact hsign
  · cases e' <;> cases hroot

theorem parseExpr_written {names : NameTable} {source : String} {e : Expr Tag}
    (h : (parseExpr names source).1 = .ok e) : ∃ tokens ts, readTokens source = .ok tokens ∧
      e.Written true 0 ts ∧ tokens.map Token.terminal = ts ++ [.kind .newline, .kind .eof] := by
  obtain ⟨tokens, c, htokens, hstart, h⟩ := parseWith_eq_ok h
  obtain ⟨ts, rest, hts, -, ⟨us, hw, hread⟩, rfl⟩ := Parse.loneExpression_reads hstart h
  refine ⟨tokens, us, htokens, hw, ?_⟩
  rcases hread with rfl | rfl
  · -- without a line end the last token would be one of the expression
    obtain ⟨before, eof, rfl, -, -, -, hlast⟩ := readTokens_ended htokens
    rw [List.map_append] at hts
    have hbefore : before.map Token.terminal = ts := List.append_inj_left' hts rfl
    have hne : before ≠ [] := by
      rintro rfl
      exact hw.ne_nil hbefore.symm
    have ht := List.getLast?_eq_some_getLast hne
    have hmem : (before.getLast hne).terminal ∈ ts :=
      hbefore ▸ List.mem_map_of_mem (List.getLast_mem hne)
    rcases hlast _ ht with hk | hk
    · rw [(Token.terminal_eq_kind rfl).2 hk] at hmem
      cases hw.isExprSign hmem
    · rw [(Token.terminal_eq_kind rfl).2 hk] at hmem
      cases hw.isExprSign hmem
  · rw [hts, List.append_assoc]
    rfl

/-! ## Without grouping -/

def Terminal.isName : Terminal → Bool
  | .name _ => true
  | _ => false

/-- No parentheses group: each one opens right after a name. -/
def Ungrouped (ts : List Terminal) : Prop :=
  (Terminal.kind .newline :: ts).IsChain fun t u => u = .kind .lparen → t.isName = true

instance (ts : List Terminal) : Decidable (Ungrouped ts) :=
  inferInstanceAs (Decidable (List.IsChain _ _))

namespace Ungrouped

variable {k : TokenKind} {ts us : List Terminal}

theorem left (h : Ungrouped (ts ++ us)) : Ungrouped ts := List.IsChain.left_of_append h

theorem right (h : Ungrouped (ts ++ .kind k :: us)) : Ungrouped us := by
  unfold Ungrouped at h
  rw [← List.cons_append] at h
  have hk := h.right_of_append
  cases us with
  | nil => exact .singleton _
  | cons u us =>
    rw [List.isChain_cons_cons] at hk
    exact List.isChain_cons_cons.2 hk

theorem tail (h : Ungrouped (.kind k :: us)) : Ungrouped us :=
  have h : Ungrouped ([] ++ .kind k :: us) := h
  h.right

theorem args {x : String} (h : Ungrouped (.name x :: .kind k :: us)) : Ungrouped us :=
  have h : Ungrouped ([.name x] ++ .kind k :: us) := h
  h.right

theorem head_ne (h : Ungrouped (.kind .lparen :: us)) : False := by
  cases (List.isChain_cons_cons.1 h).1 rfl

theorem commas : ∀ {tss : List (List Terminal)}, Ungrouped (Parse.commas tss) →
    ∀ ts ∈ tss, Ungrouped ts
  | [], _ => List.forall_mem_nil _
  | [ts], h => List.forall_mem_singleton.2 (by rwa [Parse.commas_singleton] at h)
  | ts :: us :: tss, h => by
    rw [Parse.commas_cons_cons] at h
    exact List.forall_mem_cons.2 ⟨h.left, commas h.right⟩

end Ungrouped

namespace Expr

/-- Whether a negation stands after a sign that asks for more. -/
def hasLooseNot : Expr τ → Bool
  | .unary _ op e => decide (UnaryOp.not.level < op.level) && e.isNot
  | .binary _ op _ r => decide (UnaryOp.not.level < op.level + 1) && r.isNot
  | _ => false

variable {q : Nat} {e : Expr τ} {ts : List Terminal}

theorem level_of_isNot (h : e.isNot = true) : e.level = UnaryOp.not.level := by
  unfold isNot at h
  split at h
  · rfl
  · cases h

theorem terminals_of_le (h : q ≤ e.level) :
    e.terminals (fun _ => 0) q = e.inner fun _ => 0 := by
  rw [terminals, wrap, if_neg (Nat.not_lt.2 h)]
  rfl

theorem OperandAt.le_nine {loose : Bool} {q' : Nat} (h : e.OperandAt loose q q') (hq : q ≤ 9) : q' ≤ 9 := by
  rcases h with rfl | ⟨-, -, rfl⟩
  · exact hq
  · decide

theorem OperandAt.terminals_eq {q' : Nat} (h : e.OperandAt true q q')
    (hnot : (decide (UnaryOp.not.level < q) && e.isNot) = false) :
    e.terminals (fun _ => 0) q' = e.terminals (fun _ => 0) q := by
  rcases h with rfl | ⟨-, hn, rfl⟩
  · rfl
  · have hlevel := level_of_isNot hn
    have hq : ¬UnaryOp.not.level < q := by simpa [hn] using hnot
    rw [terminals_of_le (by omega), terminals_of_le (by omega)]

theorem items_eq {items : List (Expr τ × List Terminal)}
    (ih : ∀ i ∈ items, 0 ≤ 9 → Ungrouped i.2 → (∀ e' ∈ i.1.parts, e'.hasLooseNot = false) →
      i.2 = i.1.terminals (fun _ => 0) 0)
    (hts : Ungrouped (Parse.commas (items.map Prod.snd)))
    (hnot : ∀ e' ∈ Expr.allParts (items.map Prod.fst), e'.hasLooseNot = false) :
    items.map Prod.snd = Expr.allInner (fun _ => 0) (items.map Prod.fst) := by
  rw [allParts_eq_flatMap] at hnot
  rw [allInner_eq_map, List.map_map]
  refine List.map_congr_left fun i hi => ih i hi (by decide) ?_ fun e' he' => ?_
  · exact hts.commas i.2 (List.mem_map_of_mem hi)
  · exact hnot e' (List.mem_flatMap.2 ⟨i.1, List.mem_map_of_mem hi, he'⟩)

/-- Without grouping, the levels alone say how an expression without loose negations is written. -/
theorem Written.eq_terminals (h : e.Written true q ts) (hq : q ≤ 9) (hts : Ungrouped ts)
    (hnot : ∀ e' ∈ e.parts, e'.hasLooseNot = false) : ts = e.terminals (fun _ => 0) q := by
  induction h with
  | literal t v =>
    rw [terminals_of_le (by simpa [level] using hq)]
    rfl
  | ident t x =>
    rw [terminals_of_le (by simpa [level] using hq)]
    rfl
  | list t items h ih =>
    simp only [parts, List.forall_mem_cons] at hnot
    rw [terminals_of_le (by simpa [level] using hq), inner, items_eq ih hts.tail.left hnot.2]
  | call t f items h ih =>
    simp only [parts, List.forall_mem_cons] at hnot
    rw [terminals_of_le (by simpa [level] using hq), inner, items_eq ih hts.args.left hnot.2]
  | index t hq' he hi ihe ihi =>
    simp only [parts, List.forall_mem_cons, List.forall_mem_append] at hnot
    rw [terminals_of_le hq', inner, ihe (by decide) hts.left hnot.2.1,
      ihi (by decide) hts.right.left hnot.2.2]
    rfl
  | @unary _ _ t op _ _ hq' ho he ih =>
    simp only [parts, List.forall_mem_cons] at hnot
    have hlevel : op.level ≤ 9 := by cases op <;> decide
    rw [terminals_of_le hq', inner, ih (ho.le_nine hlevel) hts.tail hnot.2, ho.terminals_eq hnot.1]
    rfl
  | @binary _ _ t op _ _ _ _ hq' hl ho hr ihl ihr =>
    simp only [parts, List.forall_mem_cons, List.forall_mem_append] at hnot
    have hlevel : op.leftLevel ≤ 9 ∧ op.level + 1 ≤ 9 := by cases op <;> decide
    rw [terminals_of_le hq', inner, ihl hlevel.1 hts.left hnot.2.1,
      ihr (ho.le_nine hlevel.2) hts.right hnot.2.2, ho.terminals_eq hnot.1]
    rfl
  | cond t hq' ha hc hb iha ihc ihb =>
    simp only [parts, List.forall_mem_cons, List.forall_mem_append] at hnot
    rw [terminals_of_le (Nat.le_of_eq hq'), inner, iha (by decide) hts.left hnot.2.1.2,
      ihc (by decide) hts.right.left hnot.2.1.1, ihb (by decide) hts.right.right hnot.2.2]
    rfl
  | group he ih => exact hts.head_ne.elim

theorem Written.le_of_isNot (h : e.Written false q ts) (hts : Ungrouped ts) (hnot : e.isNot = true) :
    q ≤ UnaryOp.not.level := by
  have hlevel := level_of_isNot hnot
  cases h with
  | literal | ident | list | call | index | binary | cond => cases hnot
  | unary t hq => exact Nat.le_trans hq (Nat.le_of_eq hlevel)
  | group => exact hts.head_ne.elim

theorem Written.not_loose (h : e.Written false q ts) (hts : Ungrouped ts) :
    (decide (UnaryOp.not.level < q) && e.isNot) = false := by
  by_contra hloose
  obtain ⟨hq, hnot⟩ : UnaryOp.not.level < q ∧ e.isNot = true := by simpa using hloose
  exact absurd (h.le_of_isNot hts hnot) (Nat.not_le_of_lt hq)

/-- What the levels ask for leaves no negation loose. -/
theorem Written.not_hasLooseNot (h : e.Written false q ts) (hts : Ungrouped ts) :
    ∀ e' ∈ e.parts, e'.hasLooseNot = false := by
  have hitems : ∀ {items : List (Expr τ × List Terminal)},
      (∀ i ∈ items, Ungrouped i.2 → ∀ e' ∈ i.1.parts, e'.hasLooseNot = false) →
      Ungrouped (Parse.commas (items.map Prod.snd)) →
      ∀ e' ∈ Expr.allParts (items.map Prod.fst), e'.hasLooseNot = false := by
    intro items ih hts e' he'
    rw [allParts_eq_flatMap] at he'
    obtain ⟨_, hmem, he'⟩ := List.mem_flatMap.1 he'
    obtain ⟨i, hi, rfl⟩ := List.mem_map.1 hmem
    exact ih i hi (hts.commas i.2 (List.mem_map_of_mem hi)) e' he'
  induction h with
  | literal | ident => exact List.forall_mem_singleton.2 rfl
  | list t items h ih => exact List.forall_mem_cons.2 ⟨rfl, hitems ih hts.tail.left⟩
  | call t f items h ih => exact List.forall_mem_cons.2 ⟨rfl, hitems ih hts.args.left⟩
  | index t hq' he hi ihe ihi =>
    simp only [parts, List.forall_mem_cons, List.forall_mem_append]
    exact ⟨rfl, ihe hts.left, ihi hts.right.left⟩
  | unary t hq' ho he ih =>
    obtain rfl : _ = _ := ho.resolve_right (by simp)
    simp only [parts, List.forall_mem_cons]
    exact ⟨he.not_loose hts.tail, ih hts.tail⟩
  | binary t hq' hl ho hr ihl ihr =>
    obtain rfl : _ = _ := ho.resolve_right (by simp)
    simp only [parts, List.forall_mem_cons, List.forall_mem_append]
    exact ⟨hr.not_loose hts.right, ihl hts.left, ihr hts.right⟩
  | cond t hq' ha hc hb iha ihc ihb =>
    simp only [parts, List.forall_mem_cons, List.forall_mem_append]
    exact ⟨rfl, ⟨ihc hts.right.left, iha hts.left⟩, ihb hts.right.right⟩
  | group => exact hts.head_ne.elim

end Expr

/-- A text without grouping is the text of the expression by its levels just if no negation stands after a
sign that asks for more. -/
theorem parseExpr_terminals_iff {names : NameTable} {source : String} {tokens : List Token} {e : Expr Tag}
    (h : (parseExpr names source).1 = .ok e) (ht : readTokens source = .ok tokens)
    (hu : Ungrouped (tokens.map Token.terminal)) :
    tokens.map Token.terminal = e.terminals (fun _ => 0) 0 ++ [.kind .newline, .kind .eof] ↔
      ∀ e' ∈ e.parts, e'.hasLooseNot = false := by
  obtain ⟨tokens', ts, ht', hw, hts⟩ := parseExpr_written h
  cases ht.symm.trans ht'
  rw [hts] at hu ⊢
  rw [List.append_left_inj]
  constructor
  · rintro rfl
    exact (e.written_terminals false _ 0).not_hasLooseNot hu.left
  · exact hw.eq_terminals (by decide) hu.left

theorem conjunction_terminals : ∃ e tokens, (parseExpr .initial "-f(a)[0] < b and not c").1 = .ok e ∧
    readTokens "-f(a)[0] < b and not c" = .ok tokens ∧ Ungrouped (tokens.map Token.terminal) ∧
      tokens.map Token.terminal = e.terminals (fun _ => 0) 0 ++ [.kind .newline, .kind .eof] := by
  have h : ((do
      let e ← (parseExpr .initial "-f(a)[0] < b and not c").1
      let tokens ← readTokens "-f(a)[0] < b and not c"
      return (decide (Ungrouped (tokens.map Token.terminal)),
        decide (∀ e' ∈ e.parts, e'.hasLooseNot = false))) :
          Except Diagnostic (Bool × Bool)).toOption = some (true, true) := by decide +kernel
  obtain ⟨e, he, h⟩ := bind_eq_ok.1 (toOption_eq_some.1 h)
  obtain ⟨tokens, ht, h⟩ := bind_eq_ok.1 h
  obtain ⟨hu, hnot⟩ := Prod.mk.inj (Except.ok.inj h)
  have hu := of_decide_eq_true hu
  exact ⟨e, tokens, he, ht, hu, (parseExpr_terminals_iff he ht hu).2 (of_decide_eq_true hnot)⟩

/-- The negation in `a * not b` stands without the parentheses that the levels ask for. -/
theorem looseProduct_ne_terminals : ∃ e tokens, (parseExpr .initial "a * not b").1 = .ok e ∧
    readTokens "a * not b" = .ok tokens ∧ Ungrouped (tokens.map Token.terminal) ∧
      tokens.map Token.terminal ≠ e.terminals (fun _ => 0) 0 ++ [.kind .newline, .kind .eof] := by
  have h : ((do
      let e ← (parseExpr .initial "a * not b").1
      let tokens ← readTokens "a * not b"
      let ts := tokens.map Token.terminal
      return (decide (Ungrouped ts),
        decide (ts = e.terminals (fun _ => 0) 0 ++ [.kind .newline, .kind .eof]))) :
          Except Diagnostic (Bool × Bool)).toOption = some (true, false) := by decide +kernel
  obtain ⟨e, he, h⟩ := bind_eq_ok.1 (toOption_eq_some.1 h)
  obtain ⟨tokens, ht, h⟩ := bind_eq_ok.1 h
  obtain ⟨hu, hne⟩ := Prod.mk.inj (Except.ok.inj h)
  exact ⟨e, tokens, he, ht, of_decide_eq_true hu, of_decide_eq_false hne⟩

end ChocoCompiler