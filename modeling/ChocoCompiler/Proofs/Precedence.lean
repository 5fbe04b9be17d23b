import ChocoCompiler.Proofs.BareTrees
import ChocoCompiler.Proofs.Lines
import ChocoCompiler.Proofs.ProgramParts

/-!
# Precedence

How tightly an expression holds together is a level between 0 and 9. From the loosest to the tightest these
are the conditional, `or`, `and`, `not`, the comparisons, sums, products, the minus sign, an index and what
needs no operator. `Expr.Written` is the grammar that goes by levels: a place asks for a level, and an
expression of a lower one stands there in parentheses. What is written by the levels is parsed to the
expression again (`Expr.Written.takes`, `parseExpr_spell`).
-/

namespace ChocoCompiler

variable {τ : Type}

/-! ## Levels -/

def BinaryOp.level : BinaryOp → Nat
  | .or => 1
  | .and => 2
  | .eq | .notEq | .less | .lessEq | .greater | .greaterEq | .is => 4
  | .add | .sub => 5
  | .mul | .floorDiv | .mod => 6

def UnaryOp.level : UnaryOp → Nat
  | .not => 3
  | .neg => 7

def Expr.level : Expr τ → Nat
  | .cond .. => 0
  | .binary _ op _ _ => op.level
  | .unary _ op _ => op.level
  | .index .. => 8
  | .literal .. | .ident .. | .list .. | .call .. => 9

/-- The level asked of a left operand: operators group to the left, but comparisons do not group. -/
def BinaryOp.leftLevel (op : BinaryOp) : Nat := if op.isComparison then op.level + 1 else op.level

def BinaryOp.sign : BinaryOp → TokenKind
  | .add => .plus
  | .sub => .minus
  | .mul => .star
  | .floorDiv => .doubleSlash
  | .mod => .percent
  | .eq => .eqEq
  | .notEq => .notEq
  | .less => .less
  | .lessEq => .lessEq
  | .greater => .greater
  | .greaterEq => .greaterEq
  | .is => .kwIs
  | .and => .kwAnd
  | .or => .kwOr

def UnaryOp.sign : UnaryOp → TokenKind
  | .neg => .minus
  | .not => .kwNot

def Expr.isNot : Expr τ → Bool
  | .unary _ .not _ => true
  | _ => false

/-- The level at which an operand is written where level `q` is asked for. A loose grammar takes a negation
without parentheses after any sign. -/
def Expr.OperandAt (loose : Bool) (q : Nat) (e : Expr τ) (q' : Nat) : Prop :=
  q' = q ∨ loose = true ∧ e.isNot = true ∧ q' = UnaryOp.not.level

/-- The terminals write the expression where level `q` is asked for. -/
inductive Expr.Written (loose : Bool) : Nat → Expr τ → List Terminal → Prop where
  | literal {q : Nat} (t : τ) (v : Literal) : Written loose q (.literal t v) [.literal v]
  | ident {q : Nat} (t : τ) (x : Ident) : Written loose q (.ident t x) [.name x.name]
  | list {q : Nat} (t : τ) (items : List (Expr τ × List Terminal))
      (h : ∀ i ∈ items, Written loose 0 i.1 i.2) :
      Written loose q (.list t (items.map Prod.fst))
        (.kind .lbracket :: (Parse.commas (items.map Prod.snd) ++ [.kind .rbracket]))
  | call {q : Nat} (t : τ) (f : Ident) (items : List (Expr τ × List Terminal))
      (h : ∀ i ∈ items, Written loose 0 i.1 i.2) :
      Written loose q (.call t f (items.map Prod.fst))
        (.name f.name :: .kind .lparen :: (Parse.commas (items.map Prod.snd) ++ [.kind .rparen]))
  | index {q : Nat} (t : τ) {e i : Expr τ} {ts us : List Terminal} (hq : q ≤ 8)
      (he : Written loose 8 e ts) (hi : Written loose 0 i us) :
      Written loose q (.index t e i) (ts ++ .kind .lbracket :: (us ++ [.kind .rbracket]))
  | unary {q q' : Nat} (t : τ) {op : UnaryOp} {e : Expr τ} {ts : List Terminal} (hq : q ≤ op.level)
      (hq' : e.OperandAt loose op.level q') (he : Written loose q' e ts) :
      Written loose q (.unary t op e) (.kind op.sign :: ts)
  | binary {q q' : Nat} (t : τ) {op : BinaryOp} {l r : Expr τ} {ts us : List Terminal}
      (hq : q ≤ op.level) (hl : Written loose op.leftLevel l ts)
      (hq' : r.OperandAt loose (op.level + 1) q') (hr : Written loose q' r us) :
      Written loose q (.binary t op l r) (ts ++ .kind op.sign :: us)
  | cond {q : Nat} (t : τ) {c a b : Expr τ} {ts us vs : List Terminal} (hq : q = 0)
      (ha : Written loose 1 a ts) (hc : Written loose 1 c us) (hb : Written loose 0 b vs) :
      Written loose q (.cond t c a b) (ts ++ .kind .kwIf :: (us ++ .kind .kwElse :: vs))
  | group {q : Nat} {e : Expr τ} {ts : List Terminal} (he : Written loose 0 e ts) :
      Written loose q e (.kind .lparen :: (ts ++ [.kind .rparen]))

/-! ## Writing an expression -/

/-- Terminals in so many pairs of parentheses. -/
def enclose : Nat → List Terminal → List Terminal
  | 0, ts => ts
  | n + 1, ts => .kind .lparen :: (enclose n ts ++ [.kind .rparen])

section terminals

variable (parens : Expr τ → Nat)

/-- Puts the terminals of an expression in as many parentheses as one likes, and in at least one pair if
the level asked for is higher than that of the expression. -/
def Expr.wrap (q : Nat) (e : Expr τ) (ts : List Terminal) : List Terminal :=
  enclose (if e.level < q then max 1 (parens e) else parens e) ts

mutual

/-- The terminals of an expression without the parentheses around it. -/
def Expr.inner : Expr τ → List Terminal
  | .literal _ v => [.literal v]
  | .ident _ x => [.name x.name]
  | .unary _ op e => .kind op.sign :: e.wrap parens op.level e.inner
  | .binary _ op l r =>
    l.wrap parens op.leftLevel l.inner ++ .kind op.sign :: r.wrap parens (op.level + 1) r.inner
  | .cond _ c a b =>
    a.wrap parens 1 a.inner ++
      .kind .kwIf :: (c.wrap parens 1 c.inner ++ .kind .kwElse :: b.wrap parens 0 b.inner)
  | .list _ es => .kind .lbracket :: (Parse.commas (Expr.allInner es) ++ [.kind .rbracket])
  | .call _ f es =>
    .name f.name :: .kind .lparen :: (Parse.commas (Expr.allInner es) ++ [.kind .rparen])
  | .index _ e i =>
    e.wrap parens 8 e.inner ++ .kind .lbracket :: (i.wrap parens 0 i.inner ++ [.kind .rbracket])

def Expr.allInner : List (Expr τ) → List (List Terminal)
  | [] => []
  | e :: es => e.wrap parens 0 e.inner :: Expr.allInner es

end

/-- The terminals that write an expression where level `q` is asked for. -/
def Expr.terminals (q : Nat) (e : Expr τ) : List Terminal := e.wrap parens q (e.inner parens)

theorem Expr.allInner_eq_map (es : List (Expr τ)) :
    Expr.allInner parens es = es.map (Expr.terminals parens 0) := by
  induction es with
  | nil => rfl
  | cons e es ih => rw [Expr.allInner, ih]; rfl

end terminals

namespace Expr

variable {loose : Bool} {q : Nat} {e : Expr τ} {ts : List Terminal} {parens : Expr τ → Nat}

theorem Written.enclose (h : e.Written loose 0 ts) : ∀ n, e.Written loose 0 (enclose n ts)
  | 0 => h
  | n + 1 => .group (h.enclose n)

theorem Written.wrap (h : ∀ q ≤ e.level, e.Written loose q ts) : e.Written loose q (e.wrap parens q ts) := by
  unfold Expr.wrap
  split_ifs with hq
  · obtain ⟨n, hn⟩ : ∃ n, max 1 (parens e) = n + 1 := ⟨max 1 (parens e) - 1, by omega⟩
    rw [hn]
    exact .group ((h 0 (Nat.zero_le _)).enclose n)
  · cases parens e with
    | zero => exact h q (Nat.le_of_not_lt hq)
    | succ n => exact .group ((h 0 (Nat.zero_le _)).enclose n)

theorem exists_items {es : List (Expr τ)} (h : ∀ e ∈ es, e.Written loose 0 (e.terminals parens 0)) :
    ∃ items : List (Expr τ × List Terminal), es = items.map Prod.fst ∧
      Expr.allInner parens es = items.map Prod.snd ∧ ∀ i ∈ items, i.1.Written loose 0 i.2 := by
  refine ⟨es.map fun e => (e, e.terminals parens 0), ?_, ?_, ?_⟩
  · rw [List.map_map]
    exact (List.map_id es).symm
  · rw [allInner_eq_map, List.map_map]
    rfl
  · intro i hi
    obtain ⟨e, he, rfl⟩ := List.mem_map.1 hi
    exact h e he

mutual

theorem written_inner : ∀ {e : Expr τ} {q : Nat}, q ≤ e.level → e.Written loose q (e.inner parens)
  | .literal t v, _, _ => .literal t v
  | .ident t x, _, _ => .ident t x
  | .unary t _ _, _, hq => .unary t hq (.inl rfl) (.wrap fun _ => written_inner)
  | .binary t _ _ _, _, hq =>
    .binary t hq (.wrap fun _ => written_inner) (.inl rfl) (.wrap fun _ => written_inner)
  | .cond t _ _ _, _, hq => .cond t (Nat.le_zero.1 hq) (.wrap fun _ => written_inner)
      (.wrap fun _ => written_inner) (.wrap fun _ => written_inner)
  | .index t _ _, _, hq => .index t hq (.wrap fun _ => written_inner) (.wrap fun _ => written_inner)
  | .list t es, _, _ => by
    obtain ⟨items, hes, hts, h⟩ := exists_items (written_mem es)
    rw [inner, hts, hes]
    exact .list t items h
  | .call t f es, _, _ => by
    obtain ⟨items, hes, hts, h⟩ := exists_items (written_mem es)
    rw [inner, hts, hes]
    exact .call t f items h

theorem written_mem : ∀ (es : List (Expr τ)), ∀ e ∈ es, e.Written loose 0 (e.terminals parens 0)
  | [] => fun _ he => (List.not_mem_nil he).elim
  | _ :: es => List.forall_mem_cons.2 ⟨.wrap fun _ => written_inner, written_mem es⟩

end

theorem written_terminals (loose : Bool) (parens : Expr τ → Nat) (q : Nat) (e : Expr τ) :
    e.Written loose q (e.terminals parens q) := .wrap fun _ => written_inner

end Expr

/-! ## Continuations -/

def Continuation.level : Continuation → Nat
  | .conditional => 0
  | .binary op => op.level
  | .index => 8

/-- The level asked of the expression to the left. -/
def Continuation.leftLevel : Continuation → Nat
  | .conditional => 1
  | .binary op => op.leftLevel
  | .index => 8

def Continuation.sign : Continuation → TokenKind
  | .conditional => .kwIf
  | .binary op => op.sign
  | .index => .lbracket

theorem UnaryOp.power_eq (op : UnaryOp) : op.power = 2 * op.level + 1 := by cases op <;> rfl

theorem BinaryOp.power_eq (op : BinaryOp) : op.power = 2 * op.level + 1 := by cases op <;> rfl

theorem BinaryOp.level_of_isComparison {op : BinaryOp} (h : op.isComparison = true) : op.level = 4 := by
  cases op <;> first | rfl | cases h

theorem BinaryOp.level_le_leftLevel (op : BinaryOp) : op.level ≤ op.leftLevel := by
  cases op <;> decide

namespace Continuation

theorem power_eq (k : Continuation) : k.power = 2 * k.level + 1 := by
  cases k with
  | conditional | index => rfl
  | binary op => exact op.power_eq

theorem level_le_leftLevel (k : Continuation) : k.level ≤ k.leftLevel := by
  cases k with
  | conditional | index => decide
  | binary op => exact op.level_le_leftLevel

theorem leftLevel_pos (k : Continuation) : 0 < k.leftLevel := by
  cases k with
  | conditional | index => decide
  | binary op => cases op <;> decide

theorem level_ne_unary (k : Continuation) (op : UnaryOp) : k.level ≠ op.level := by
  cases k with
  | conditional | index => cases op <;> decide
  | binary op' => cases op <;> cases op' <;> decide

theorem ofToken?_sign (k : Continuation) : ofToken? k.sign = some k := by
  cases k with
  | conditional | index => rfl
  | binary op => cases op <;> rfl

theorem sign_ne_eof (k : Continuation) : Terminal.kind k.sign ≠ .kind .eof := by
  intro h
  have hk := k.ofToken?_sign
  rw [Terminal.kind.inj h] at hk
  cases hk

end Continuation

theorem TokenKind.continuation?_of_isComparison {k : TokenKind} (h : k.isComparison = true) :
    ∃ op, Continuation.ofToken? k = some (.binary op) ∧ op.isComparison = true := by
  cases k <;> first | exact ⟨_, rfl, rfl⟩ | cases h

/-- Whether an expression can start with the terminal. -/
def Terminal.startsExpr : Terminal → Bool
  | .literal _ | .name _ => true
  | .kind k => k == .lparen || k == .lbracket || k == .minus || k == .kwNot

/-- The continuation that a terminal starts. -/
def Terminal.continuation? : Terminal → Option Continuation
  | .kind k => Continuation.ofToken? k
  | _ => none

theorem Token.continuation?_terminal (t : Token) :
    t.terminal.continuation? = Continuation.ofToken? t.kind := by
  cases h : t.terminal with
  | name x =>
    rw [(terminal_eq_name.1 h).1]
    rfl
  | kind k =>
    rw [kind_of_terminal h]
    rfl
  | literal v =>
    have hp : t.kind.isPlain = false := by
      by_contra hp
      have hl := terminal_eq_literal.1 h
      rw [literal?_of_isPlain (by simpa using hp)] at hl
      cases hl
    cases hk : t.kind <;> rw [hk] at hp <;> first | rfl | cases hp

/-- Something comes next, and if it takes an expression as its first part, one of level `q` will do. -/
def CanFollow (q : Nat) : List Terminal → Prop
  | [] => False
  | t :: _ => t ≠ .kind .lparen ∧ ∀ k, t.continuation? = some k → k.leftLevel ≤ q

/-- What comes next does not hold tightly enough to be taken. -/
def Halts (power : Nat) (us : List Terminal) : Prop :=
  ∀ k, us.head?.bind Terminal.continuation? = some k → k.power < power

section CanFollow

variable {q q' power : Nat} {us : List Terminal} {t : Terminal}

theorem CanFollow.exists_cons (h : CanFollow q us) : ∃ t us', us = t :: us' ∧ t ≠ .kind .lparen := by
  cases us with
  | nil => exact h.elim
  | cons t us => exact ⟨t, us, rfl, h.1⟩

theorem CanFollow.leftLevel_le {k : Continuation} (h : CanFollow q us)
    (hk : us.head?.bind Terminal.continuation? = some k) : k.leftLevel ≤ q := by
  cases us with
  | nil => exact h.elim
  | cons t us => exact h.2 k hk

theorem CanFollow.mono (h : CanFollow q us) (hq : q ≤ q') : CanFollow q' us := by
  obtain ⟨t, us, rfl, ht⟩ := h.exists_cons
  exact ⟨ht, fun k hk => Nat.le_trans (h.2 k hk) hq⟩

theorem CanFollow.of_none (ht : t.continuation? = none) (hp : t ≠ .kind .lparen) : CanFollow q (t :: us) := by
  refine ⟨hp, fun k hk => ?_⟩
  rw [ht] at hk
  cases hk

theorem Halts.of_none (ht : t.continuation? = none) : Halts power (t :: us) := by
  intro k hk
  rw [List.head?_cons, Option.bind_some, ht] at hk
  cases hk

theorem CanFollow.sign {k : Continuation} (hk : k.leftLevel ≤ q) : CanFollow q (.kind k.sign :: us) := by
  refine ⟨?_, fun k' hk' => ?_⟩
  · cases k with
    | conditional | index => simp [Continuation.sign]
    | binary op => cases op <;> simp [Continuation.sign, BinaryOp.sign]
  · rw [Terminal.continuation?, k.ofToken?_sign] at hk'
    cases hk'
    exact hk

theorem CanFollow.halts_unary {op : UnaryOp} (h : CanFollow q us) (hq : q ≤ op.level) :
    Halts op.power us := by
  intro k hk
  have hle := k.level_le_leftLevel
  have hnext := h.leftLevel_le hk
  have hne := k.level_ne_unary op
  rw [k.power_eq, op.power_eq]
  omega

theorem CanFollow.halts_binary {op : BinaryOp} (h : CanFollow q us) (hq : q ≤ op.level) :
    Halts (op.power + 1) us := by
  intro k hk
  have hle := k.level_le_leftLevel
  have hnext := h.leftLevel_le hk
  rw [k.power_eq, op.power_eq]
  omega

theorem CanFollow.isComparison {op op' : BinaryOp} (h : CanFollow q (t :: us)) (hq : q ≤ op.level)
    (hop : op.isComparison = true) (ht : t.continuation? = some (.binary op')) :
    op'.isComparison = false := by
  by_contra hop'
  rw [Bool.not_eq_false] at hop'
  have hle : op'.leftLevel ≤ q := h.2 _ ht
  rw [BinaryOp.leftLevel, if_pos hop', BinaryOp.level_of_isComparison hop'] at hle
  rw [BinaryOp.level_of_isComparison hop] at hq
  omega

theorem CanFollow.halts_zero (h : CanFollow 0 us) : Halts power us := by
  intro k hk
  exact absurd (h.leftLevel_le hk) (Nat.not_le_of_lt k.leftLevel_pos)

end CanFollow

/-! ## Parsing what is written -/

namespace Parse

variable {power depth q m : Nat} {us vs : List Terminal} {c : Cursor} {lhs : Expr Tag}
  {sub : Nat → Parse (Expr Tag)}

theorem climb_succ (hc : c.At us) : climb sub power (m + 1) lhs c =
    (match us.head?.bind Terminal.continuation? with
    | none => pure lhs
    | some k =>
      if k.power < power then pure lhs
      else advance >>= fun _ => extend sub lhs k >>= climb sub power m : Parse (Expr Tag)) c := by
  obtain ⟨t, us, rfl⟩ := hc.exists_cons
  have hk := c.next.continuation?_terminal
  rw [hc.next] at hk
  rw [climb, run_peek, ← hk]
  rfl

theorem climb_halts (h : Halts power us) (hc : c.At us) : climb sub power m lhs c = .ok lhs c := by
  cases m with
  | zero => rfl
  | succ m =>
    rw [climb_succ hc]
    cases hk : us.head?.bind Terminal.continuation? with
    | none => rfl
    | some k =>
      dsimp only
      rw [if_pos (h k hk)]
      rfl

/-- A continuation that holds tightly enough is taken. -/
theorem climb_extend {k : Continuation} {Q : Expr Tag → Prop} (hk : power ≤ k.power)
    (hx : Takes (extend sub lhs k) vs us Q) (hc : c.At (.kind k.sign :: (vs ++ us)))
    (hm : c.rest.length ≤ m) :
    ∃ m' e c', climb sub power m lhs c = climb sub power m' e c' ∧ c'.At us ∧ Q e ∧
      c'.rest.length ≤ m' := by
  obtain ⟨e, c', he, hc', hQ⟩ := hx (hc.moved k.sign_ne_eof)
  have hlen := hc.length
  have hlen' := hc'.length
  obtain ⟨t, us, rfl⟩ := hc'.exists_cons
  simp only [List.length_cons, List.length_append] at hlen hlen'
  obtain ⟨m, rfl⟩ : ∃ m', m = m' + 1 := ⟨m - 1, by omega⟩
  refine ⟨m, e, c', ?_, hc', hQ, by omega⟩
  rw [climb_succ hc, List.head?_cons, Option.bind_some, Terminal.continuation?, k.ofToken?_sign]
  dsimp only
  rw [if_neg (Nat.not_lt.2 hk), run_advance,
    run_bind he]

/-- The terminals of `e` are read as its leftmost operand and what takes that one after the other, in front
of whatever can follow level `q`. -/
def Spans (q : Nat) (e : Expr τ) (ts : List Terminal) : Prop :=
  ∀ ⦃power depth : Nat⦄ ⦃us : List Terminal⦄ ⦃c : Cursor⦄, power ≤ 2 * q + 1 → CanFollow q us →
    ts.length ≤ depth + 1 → c.At (ts ++ us) →
    ∃ lhs c₁, operand (expr depth) c = .ok lhs c₁ ∧ ∀ m, c₁.rest.length ≤ m →
      ∃ m' e' c', climb (expr depth) power m lhs c₁ = climb (expr depth) power m' e' c' ∧ c'.At us ∧
        e'.bare = e.bare ∧ c'.rest.length ≤ m'

namespace Spans

variable {e l : Expr τ} {ts : List Terminal} {q' : Nat}

theorem ofOperand (h : ∀ ⦃depth us⦄, CanFollow q us → ts.length ≤ depth + 1 →
    Takes (operand (expr depth)) ts us (·.bare = e.bare)) : Spans q e ts := by
  intro power depth us c _ hus hd hc
  obtain ⟨lhs, c₁, hlhs, hc₁, he⟩ := h hus hd hc
  exact ⟨lhs, c₁, hlhs, fun m hm => ⟨m, lhs, c₁, rfl, hc₁, he, hm⟩⟩

theorem extend {k : Continuation} (hl : Spans q' l ts) (hq' : k.leftLevel ≤ q') (hq : q ≤ k.level)
    (h : ∀ ⦃depth us lhs⦄, CanFollow q us → vs.length ≤ depth → lhs.bare = l.bare →
      Takes (Parse.extend (expr depth) lhs k) vs us (·.bare = e.bare)) :
    Spans q e (ts ++ .kind k.sign :: vs) := by
  intro power depth us c hp hus hd hc
  rw [List.append_assoc, List.cons_append] at hc
  simp only [List.length_append, List.length_cons] at hd
  have hlevel := k.level_le_leftLevel
  have hpower := k.power_eq
  have hpower' : power ≤ 2 * q' + 1 := by omega
  have hdepth : ts.length ≤ depth + 1 := by omega
  obtain ⟨lhs, c₁, hlhs, hclimb⟩ := hl hpower' (.sign hq') hdepth hc
  refine ⟨lhs, c₁, hlhs, fun m hm => ?_⟩
  obtain ⟨m₂, l', c₂, hm₂, hc₂, hl', hle⟩ := hclimb m hm
  rw [hm₂]
  exact climb_extend (by omega) (h hus (by omega) hl') hc₂ hle

theorem takes (h : Spans q e ts) (hne : ts ≠ []) (hp : power ≤ 2 * q + 1) (hf : CanFollow q us)
    (hus : Halts power us) (hd : ts.length ≤ depth) : Takes (expr depth power) ts us (·.bare = e.bare) := by
  intro c hc
  obtain ⟨d, rfl⟩ : ∃ d, depth = d + 1 := by
    cases depth with
    | zero => exact absurd (List.eq_nil_of_length_eq_zero (Nat.le_zero.1 hd)) hne
    | succ d => exact ⟨d, rfl⟩
  obtain ⟨lhs, c₁, hlhs, hclimb⟩ := h hp hf hd hc
  obtain ⟨m, e', c', hm, hc', he', -⟩ := hclimb _ (Nat.le_refl _)
  refine ⟨e', c', ?_, hc', he'⟩
  rw [expr, run_bind hlhs, run_remaining, hm,
    climb_halts hus hc']

theorem takes_zero {t : Terminal} (h : Spans q e ts) (hne : ts ≠ []) (ht : t.continuation? = none)
    (hp : t ≠ .kind .lparen) (hd : ts.length ≤ depth) :
    Takes (expr depth 0) ts (t :: us) (·.bare = e.bare) :=
  h.takes hne (Nat.zero_le _) (.of_none ht hp) (.of_none ht) hd

end Spans

/-! What an operand can be, and how one goes on. -/

section Parts

variable {ts : List Terminal} {e l r a b : Expr τ} {es : List (Expr τ)} {t : Terminal}

theorem operand_literal {v : Literal} : Takes (operand sub) [.literal v] us (·.bare = .literal () v) := by
  refine .next (.advance (by simp)) fun tok htok => ?_
  simp only [Token.terminal_eq_literal.1 htok]
  refine .look (.pure rfl) fun w hw => Takes.node.mono ?_
  subst hw
  rintro _ ⟨tag, rfl⟩
  rfl

theorem operand_ident {x : Ident} (ht : t ≠ .kind .lparen) :
    Takes (operand sub) [.name x.name] (t :: us) (·.bare = .ident () x.bare) := by
  refine .next (.advance (by simp)) fun tok htok => ?_
  obtain ⟨hk, hname⟩ := Token.terminal_eq_name.1 htok
  simp only [Token.literal?_of_identifier hk, hk]
  refine .look .enterName fun y hy => .look (.isAt rfl) fun b hb => ?_
  rw [hb, if_neg (by simpa using ht)]
  refine Takes.node.mono ?_
  rintro _ ⟨tag, rfl⟩
  rw [Expr.bare, Ident.bare_eq (hy.trans hname)]

theorem commaList_exprs {items : List (Expr τ × List Terminal)} {span : Span} {close : TokenKind}
    (hc : close = .rparen ∨ close = .rbracket)
    (hstart : ∀ i ∈ items, ∃ t ts, i.2 = t :: ts ∧ t ≠ .kind close)
    (h : ∀ i ∈ items, ∀ k us, k = .comma ∨ k = close →
      Takes (sub 0) i.2 (.kind k :: us) (·.bare = i.1.bare)) :
    Takes (commaList span close (sub 0)) (commas (items.map Prod.snd)) (.kind close :: us)
      (Expr.allBare · = Expr.allBare (items.map Prod.fst)) := by
  have hplain : close.isPlain = true ∧ close ≠ .comma := by rcases hc with rfl | rfl <;> decide
  refine (Takes.commaList hplain.1 hplain.2 hstart h).mono fun as has => ?_
  rw [Expr.allBare_eq_map, Expr.allBare_eq_map, List.map_map]
  exact map_eq_of_forall₂ has fun _ _ h => h

theorem operand_call {x : Ident}
    (h : ∀ span, Takes (commaList span .rparen (sub 0)) ts (.kind .rparen :: us)
      (Expr.allBare · = Expr.allBare es)) :
    Takes (operand sub) (.name x.name :: .kind .lparen :: (ts ++ [.kind .rparen])) us
      (·.bare = .call () x.bare (Expr.allBare es)) := by
  refine .next (.advance (by simp)) fun tok htok => ?_
  obtain ⟨hk, hname⟩ := Token.terminal_eq_name.1 htok
  simp only [Token.literal?_of_identifier hk, hk]
  refine .look .enterName fun y hy => .look (.isAt rfl) fun b hb => ?_
  rw [hb, if_pos (by simp)]
  refine .next (.advance (by simp)) fun paren _ => .bind (h _) fun args hargs =>
    .next (.expect rfl (by decide)) fun _ _ => Takes.node.mono ?_
  rintro _ ⟨tag, rfl⟩
  rw [Expr.bare, Ident.bare_eq (hy.trans hname), hargs]

theorem operand_group {Q : Expr Tag → Prop} (h : Takes (sub 0) ts (.kind .rparen :: us) Q) :
    Takes (operand sub) (.kind .lparen :: (ts ++ [.kind .rparen])) us Q := by
  refine .next (.advance (by simp)) fun tok htok => ?_
  have hk := Token.kind_of_terminal htok
  simp only [Token.literal?_of_terminal htok rfl, hk]
  refine .bind h fun e he => .next (.take rfl (by decide)) fun _ ht => ?_
  rw [ht]
  exact .pure he

theorem operand_list (h : ∀ span, Takes (commaList span .rbracket (sub 0)) ts (.kind .rbracket :: us)
      (Expr.allBare · = Expr.allBare es)) :
    Takes (operand sub) (.kind .lbracket :: (ts ++ [.kind .rbracket])) us
      (·.bare = .list () (Expr.allBare es)) := by
  refine .next (.advance (by simp)) fun tok htok => ?_
  have hk := Token.kind_of_terminal htok
  simp only [Token.literal?_of_terminal htok rfl, hk]
  refine .bind (h _) fun items hitems => .next (.expect rfl (by decide)) fun _ _ => Takes.node.mono ?_
  rintro _ ⟨tag, rfl⟩
  rw [Expr.bare, hitems]

theorem operand_unary {op : UnaryOp} (h : Takes (sub op.power) ts us (·.bare = e.bare)) :
    Takes (operand sub) (.kind op.sign :: ts) us (·.bare = .unary () op e.bare) := by
  have hunary : ∀ tok, Takes (unary sub tok op) ts us (·.bare = .unary () op e.bare) := by
    intro tok
    refine .last h fun e' he => Takes.node.mono ?_
    rintro _ ⟨tag, rfl⟩
    rw [Expr.bare, he]
  refine .next (.advance (by cases op <;> simp [UnaryOp.sign])) fun tok htok => ?_
  have hk := Token.kind_of_terminal htok
  cases op with
  | neg =>
    simp only [Token.literal?_of_terminal htok rfl, hk, UnaryOp.sign]
    exact hunary tok
  | not =>
    simp only [Token.literal?_of_terminal htok rfl, hk, UnaryOp.sign]
    exact hunary tok

theorem extend_index {lhs : Expr Tag} (hl : lhs.bare = l.bare)
    (h : Takes (sub 0) ts (.kind .rbracket :: us) (·.bare = e.bare)) :
    Takes (extend sub lhs .index) (ts ++ [.kind .rbracket]) us (·.bare = .index () l.bare e.bare) := by
  refine .bind h fun i hi => .next (.expect rfl (by decide)) fun _ _ => Takes.node.mono ?_
  rintro _ ⟨tag, rfl⟩
  rw [Expr.bare, hl, hi]

theorem extend_binary {op : BinaryOp} {lhs : Expr Tag} (hl : lhs.bare = l.bare)
    (ht : ∀ op' : BinaryOp, op.isComparison = true → t.continuation? = some (.binary op') →
      op'.isComparison = false)
    (h : Takes (sub (op.power + 1)) ts (t :: us) (·.bare = r.bare)) :
    Takes (extend sub lhs (.binary op)) ts (t :: us) (·.bare = .binary () op l.bare r.bare) := by
  refine .last h fun rhs hr => .look .peek fun tok htok => ?_
  rw [if_neg ?_]
  · refine Takes.node.mono ?_
    rintro _ ⟨tag, rfl⟩
    rw [Expr.bare, hl, hr]
  · rw [Bool.and_eq_true]
    rintro ⟨hop, hk⟩
    obtain ⟨op', hop', hc⟩ := TokenKind.continuation?_of_isComparison hk
    rw [← tok.continuation?_terminal, htok] at hop'
    rw [ht op' hop hop'] at hc
    cases hc

theorem extend_cond {lhs : Expr Tag} (hl : lhs.bare = l.bare)
    (hc : Takes (sub conditionPower) ts (.kind .kwElse :: (vs ++ us)) (·.bare = e.bare))
    (hb : Takes (sub Continuation.conditional.power) vs us (·.bare = b.bare)) :
    Takes (extend sub lhs .conditional) (ts ++ .kind .kwElse :: vs) us
      (·.bare = .cond () e.bare l.bare b.bare) := by
  refine .bind hc fun test htest => .next (.expect rfl (by decide)) fun _ _ => .last hb fun orElse hb =>
    Takes.node.mono ?_
  rintro _ ⟨tag, rfl⟩
  rw [Expr.bare, hl, htest, hb]

end Parts

end Parse

namespace Expr

open Parse

variable {loose : Bool} {q : Nat} {e : Expr τ} {ts us : List Terminal}

theorem Written.ne_nil (h : e.Written loose q ts) : ts ≠ [] := by
  cases h <;> simp

theorem Written.exists_cons (h : e.Written loose q ts) :
    ∃ t ts', ts = t :: ts' ∧ t.startsExpr = true := by
  induction h with
  | literal | ident | list | call | group => exact ⟨_, _, rfl, rfl⟩
  | unary t => exact ⟨_, _, rfl, by cases ‹UnaryOp› <;> rfl⟩
  | index _ _ _ _ ih | binary _ _ _ _ _ ih | cond _ _ _ _ _ ih =>
    obtain ⟨t, ts', rfl, ht⟩ := ih
    exact ⟨t, _, rfl, ht⟩

/-- What is written by the levels is parsed to the expression again. -/
theorem Written.spans (h : e.Written false q ts) : Spans q e ts := by
  have hlist : ∀ {items : List (Expr τ × List Terminal)} {close : TokenKind} {depth : Nat}
      {us : List Terminal} {span : Span}, close = .rparen ∨ close = .rbracket →
      (∀ i ∈ items, i.1.Written false 0 i.2) → (∀ i ∈ items, Spans 0 i.1 i.2) →
      (commas (items.map Prod.snd)).length ≤ depth →
      Takes (commaList span close (expr depth 0)) (commas (items.map Prod.snd)) (.kind close :: us)
        (Expr.allBare · = Expr.allBare (items.map Prod.fst)) := by
    intro items close depth us span hclose h ih hd
    refine commaList_exprs hclose (fun i hi => ?_) fun i hi k us hk => ?_
    · obtain ⟨t, ts, hts, ht⟩ := (h i hi).exists_cons
      refine ⟨t, ts, hts, ?_⟩
      rintro rfl
      rcases hclose with rfl | rfl <;> cases ht
    · have hlen := length_le_commas_of_mem (List.mem_map_of_mem (f := Prod.snd) hi)
      refine (ih i hi).takes_zero (h i hi).ne_nil ?_ ?_ (by omega)
      · rcases hk with rfl | rfl
        · rfl
        · rcases hclose with rfl | rfl <;> rfl
      · rcases hk with rfl | rfl
        · simp
        · rcases hclose with rfl | rfl <;> simp
  induction h with
  | literal t v => exact .ofOperand fun _ _ _ _ => operand_literal
  | ident t x =>
    refine .ofOperand fun _ _ hus _ => ?_
    obtain ⟨t, us, rfl, ht⟩ := hus.exists_cons
    exact operand_ident ht
  | list t items h ih =>
    refine .ofOperand fun depth us _ hd => operand_list fun span => hlist (.inr rfl) h ih ?_
    simp only [List.length_cons, List.length_append] at hd
    omega
  | call t f items h ih =>
    refine .ofOperand fun depth us _ hd => operand_call fun span => hlist (.inl rfl) h ih ?_
    simp only [List.length_cons, List.length_append] at hd
    omega
  | index t hq he hi ihe ihi =>
    refine .extend (k := .index) ihe (Nat.le_refl _) hq fun depth us lhs _ hd hl => ?_
    rw [List.length_append] at hd
    exact extend_index hl (ihi.takes_zero hi.ne_nil rfl (by simp) (by omega))
  | unary t hq hq' he ih =>
    obtain rfl : _ = _ := hq'.resolve_right (by simp)
    refine .ofOperand fun depth us hus hd => operand_unary ?_
    exact ih.takes he.ne_nil (Nat.le_of_eq (UnaryOp.power_eq _)) (hus.mono hq) (hus.halts_unary hq)
      (Nat.le_of_succ_le_succ hd)
  | binary t hq hl hq' hr ihl ihr =>
    obtain rfl : _ = _ := hq'.resolve_right (by simp)
    -- the left operand is read by the same loop that then takes the operator
    refine .extend (k := .binary _) ihl (Nat.le_refl _) hq fun depth us lhs hus hd hlhs => ?_
    obtain ⟨t, us, rfl, ht⟩ := hus.exists_cons
    refine extend_binary hlhs (fun op' => hus.isComparison hq) ?_
    refine ihr.takes hr.ne_nil ?_ (hus.mono (by omega)) (hus.halts_binary hq) hd
    rw [BinaryOp.power_eq]
    omega
  | cond t hq ha hc hb iha ihc ihb =>
    subst hq
    refine .extend (k := .conditional) iha (Nat.le_refl _) (Nat.le_refl _) fun depth us lhs hus hd hl => ?_
    simp only [List.length_append, List.length_cons] at hd
    refine extend_cond hl ?_ ?_
    · exact ihc.takes hc.ne_nil (by decide) (.of_none rfl (by simp)) (.of_none rfl) (by omega)
    · exact ihb.takes hb.ne_nil (by decide) hus hus.halts_zero (by omega)
  | group he ih =>
    refine .ofOperand fun depth us _ hd => operand_group (ih.takes_zero he.ne_nil rfl (by simp) ?_)
    simp only [List.length_cons, List.length_append] at hd
    omega

end Expr

/-! ## Whole texts -/

namespace Parse

variable {e : Expr τ} {q : Nat} {ts us : List Terminal} {t : Terminal}

theorem expression_takes (h : e.Written false q ts) (ht : t.continuation? = none) (hp : t ≠ .kind .lparen) :
    Takes expression ts (t :: us) (·.bare = e.bare) := by
  refine .look .remaining fun n hn => h.spans.takes_zero h.ne_nil ht hp ?_
  rw [List.length_append, List.length_cons] at hn
  omega

theorem Takes.expect_eof : Takes (Parse.expect .eof) [] [.kind .eof] fun _ => True := by
  refine .look .peek fun tok htok => ?_
  rw [if_pos (beq_iff_eq.2 (Token.kind_of_terminal htok))]
  intro c hc
  exact ⟨c.next, c.moved, rfl, hc.moved_eof.symm ▸ hc, trivial⟩

theorem loneExpression_takes (h : e.Written false q ts) :
    Takes loneExpression (ts ++ [.kind .newline]) [.kind .eof] (·.bare = e.bare) :=
  .bind (expression_takes h rfl (by simp)) fun _ he => .next (.take rfl (by decide)) fun _ _ =>
    .look .expect_eof fun _ _ => .pure he

end Parse

/-- The signs of expressions. -/
def TokenKind.isExprSign : TokenKind → Bool
  | .plus | .minus | .star | .doubleSlash | .percent | .eqEq | .notEq | .lessEq | .greaterEq | .less
  | .greater | .lparen | .rparen | .lbracket | .rbracket | .comma | .kwIf | .kwElse | .kwAnd | .kwOr
  | .kwNot | .kwIs => true
  | _ => false

namespace Expr

/-- The name or literal at the root of an expression. -/
def root? : Expr τ → Option Terminal
  | .literal _ v => some (.literal v)
  | .ident _ x => some (.name x.name)
  | .call _ f _ => some (.name f.name)
  | _ => none

/-- Whether there is a text for an expression: all its literals and names can be written. -/
def isWritable (e : Expr τ) : Bool := e.parts.all (·.root?.all Terminal.isWritable)

/-- A terminal that a part of some expression brings along. -/
def Brings (es : List (Expr τ)) (t : Terminal) : Prop :=
  (∃ k, t = .kind k ∧ k.isExprSign = true) ∨ ∃ e ∈ es, e.root? = some t

variable {loose : Bool} {q : Nat} {e : Expr τ} {ts : List Terminal} {t : Terminal}

theorem Brings.sign {es : List (Expr τ)} {k : TokenKind} (hk : k.isExprSign = true) :
    Brings es (.kind k) := .inl ⟨k, rfl, hk⟩

theorem Brings.mono {es es' : List (Expr τ)} (h : Brings es t) (hs : ∀ e ∈ es, e ∈ es') : Brings es' t :=
  h.imp_right fun ⟨e, he, ht⟩ => ⟨e, hs e he, ht⟩

theorem Brings.commas {items : List (Expr τ × List Terminal)}
    (h : ∀ i ∈ items, ∀ t ∈ i.2, Brings i.1.parts t) :
    ∀ t ∈ Parse.commas (items.map Prod.snd), Brings (Expr.allParts (items.map Prod.fst)) t := by
  intro t ht
  rcases Parse.mem_commas ht with rfl | ⟨us, hus, ht⟩
  · exact .sign rfl
  · obtain ⟨i, hi, rfl⟩ := List.mem_map.1 hus
    refine (h i hi t ht).mono fun e he => ?_
    rw [Expr.allParts_eq_flatMap]
    exact List.mem_flatMap.2 ⟨i.1, List.mem_map_of_mem hi, he⟩

theorem Written.brings (h : e.Written loose q ts) : ∀ t ∈ ts, Brings e.parts t := by
  induction h with
  | literal t v => exact List.forall_mem_singleton.2 (.inr ⟨_, List.mem_cons_self .., rfl⟩)
  | ident t x => exact List.forall_mem_singleton.2 (.inr ⟨_, List.mem_cons_self .., rfl⟩)
  | list t items h ih =>
    simp only [parts, List.forall_mem_cons, List.forall_mem_append]
    exact ⟨.sign rfl, fun t ht => (Brings.commas ih t ht).mono fun _ => List.mem_cons_of_mem _,
      .sign rfl, List.forall_mem_nil _⟩
  | call t f items h ih =>
    simp only [parts, List.forall_mem_cons, List.forall_mem_append]
    exact ⟨.inr ⟨_, List.mem_cons_self .., rfl⟩, .sign rfl,
      fun t ht => (Brings.commas ih t ht).mono fun _ => List.mem_cons_of_mem _, .sign rfl,
      List.forall_mem_nil _⟩
  | index t hq he hi ihe ihi =>
    simp only [parts, List.forall_mem_cons, List.forall_mem_append]
    exact ⟨fun t ht => (ihe t ht).mono fun _ h => by simp [h], .sign rfl,
      fun t ht => (ihi t ht).mono fun _ h => by simp [h], .sign rfl, List.forall_mem_nil _⟩
  | @unary _ _ t op _ _ hq hq' he ih =>
    simp only [parts, List.forall_mem_cons]
    exact ⟨.sign (by cases op <;> rfl), fun t ht => (ih t ht).mono fun _ h => by simp [h]⟩
  | @binary _ _ t op _ _ _ _ hq hl hq' hr ihl ihr =>
    simp only [parts, List.forall_mem_cons, List.forall_mem_append]
    exact ⟨fun t ht => (ihl t ht).mono fun _ h => by simp [h], .sign (by cases op <;> rfl),
      fun t ht => (ihr t ht).mono fun _ h => by simp [h]⟩
  | cond t hq ha hc hb iha ihc ihb =>
    simp only [parts, List.forall_mem_cons, List.forall_mem_append]
    exact ⟨fun t ht => (iha t ht).mono fun _ h => by simp [h], .sign rfl,
      fun t ht => (ihc t ht).mono fun _ h => by simp [h], .sign rfl,
      fun t ht => (ihb t ht).mono fun _ h => by simp [h]⟩
  | group he ih =>
    simp only [List.forall_mem_cons, List.forall_mem_append]
    exact ⟨.sign rfl, ih, .sign rfl, List.forall_mem_nil _⟩

theorem Written.isWritable (h : e.Written loose q ts) (hw : e.isWritable = true) :
    ∀ t ∈ ts, t.isWritable = true := by
  intro t ht
  rcases h.brings t ht with ⟨k, rfl, hk⟩ | ⟨e', he', hroot⟩
  · cases k <;> first | rfl | cases hk
  · have hall := List.all_eq_true.1 hw e' he'
    rwa [hroot] at hall

end Expr

/-- An expression is parsed from its text, whatever parentheses stand in it besides those that the levels
ask for. -/
theorem parseExpr_spell {e : Expr τ} (parens : Expr τ → Nat) (hw : e.isWritable = true) (names : NameTable) :
    ∃ e', (parseExpr names (String.ofList (spell (e.terminals parens 0)))).1 = .ok e' ∧
      e'.bare = e.bare := by
  have h := e.written_terminals false parens 0
  have hl := Lexes.alone h.ne_nil (h.isWritable hw)
  rw [List.append_cons] at hl
  exact parseWith_takes hl (Parse.loneExpression_takes h)

/-- An expression in which all levels meet; the tag says whether it stands in parentheses in any case. -/
def mixedExpr : Expr Bool :=
  let name (x : String) : Expr Bool := .ident false ⟨x, default⟩
  .cond false
    (.unary false .not (.binary false .or (.binary false .eq (name "a") (name "b")) (name "c")))
    (.binary false .mul (.binary false .add (name "a") (.literal false (.int 1)))
      (.unary false .neg (.index false (name "xs") (.literal false (.int 0)))))
    (.call true ⟨"f", default⟩ [.literal false (.str "q")])

theorem mixedExpr_parsed :
    String.ofList (spell (mixedExpr.terminals (·.tag.toNat) 0)) =
        "( a + 1 ) * - xs [ 0 ] if not ( a == b or c ) else ( f ( \"q\" ) )" ∧
      ∃ e, (parseExpr .initial "( a + 1 ) * - xs [ 0 ] if not ( a == b or c ) else ( f ( \"q\" ) )").1 =
        .ok e ∧ e.bare = mixedExpr.bare := by
  have htext : String.ofList (spell (mixedExpr.terminals (·.tag.toNat) 0)) =
      "( a + 1 ) * - xs [ 0 ] if not ( a == b or c ) else ( f ( \"q\" ) )" := by decide +kernel
  have hw : mixedExpr.isWritable = true := by decide +kernel
  have h := parseExpr_spell (·.tag.toNat) hw .initial
  rw [htext] at h
  exact ⟨htext, h⟩

end ChocoCompiler
