import ChocoCompiler.Proofs.ParserProgress

/-!
# The parser's recursions end

A bound that a recursion is given could cut it short, and one without a bound need not end. So the loops and
recursions of the parser are written down once more without their bounds, each as what one round does given what
the rounds after it do (`Parse.whileBody` and so on). A round goes on only with fewer tokens in front of it
(`Parse.Guarded`). Hence, with as many rounds as there are tokens left, nothing is left open: whatever is put in
place of the rounds after these, the answer is that of the parser with its bound (`Parse.Terminates`).
-/

namespace ChocoCompiler

namespace Parse

variable {α β ι : Type} {tokens : List Token}

/-- Unrolled as often as there are tokens left, the end included, the recursion gives the answers of `f`, no matter
how the calls after that are answered. -/
def Terminates (tokens : List Token) (body : (ι → Parse α) → ι → Parse α) (f : ι → Parse α) : Prop :=
  ∀ ⦃i c⦄, c.StandsAt tokens i → ∀ n, tokens.length ≤ i + n → ∀ g k, body^[n] g k c = f k c

/-! ## One round of each recursion -/

def whileBody (more : Parse Bool) (item : Parse α) (go : Unit → Parse (List α)) (_ : Unit) : Parse (List α) := do
  if ← more then
    let x ← item
    return x :: (← go ())
  else return []

def commaBody (openSpan : Span) (close : TokenKind) (item : Parse α) (go : Unit → Parse (List α)) (_ : Unit) :
    Parse (List α) := do
  let x ← item
  if ← take .comma then
    return x :: (← go ())
  else if ← isAt close then
    return [x]
  else
    let t ← peek
    if t.kind == .newline || t.kind == .eof then failAt openSpan .unmatchedParentheses
    else fail .commaExpected

def climbBody (sub : Nat → Parse (Expr Tag)) (power : Nat) (go : Expr Tag → Parse (Expr Tag)) (lhs : Expr Tag) :
    Parse (Expr Tag) := do
  let t ← peek
  match Continuation.ofToken? t.kind with
  | none => return lhs
  | some k =>
    if k.power < power then return lhs
    else
      let _ ← advance
      let e ← extend sub lhs k
      go e

def exprBody (go : Nat → Parse (Expr Tag)) (power : Nat) : Parse (Expr Tag) := do
  let lhs ← operand go
  ample (climb go power) lhs

def typeBody (go : Unit → Parse TypeExpr) (_ : Unit) : Parse TypeExpr := do
  let t ← advance
  match t.kind with
  | .kwInt => return .named .int t.span
  | .kwBool => return .named .bool t.span
  | .kwStr => return .named .str t.span
  | .kwObject => return .named .object t.span
  | .lbracket => do
    let elem ← go ()
    let close ← expect .rbracket
    return .list elem (t.span.cover close.span)
  | .identifier => do
    let name ← enterName t
    failAt t.span (.unknownType (some name.name))
  | _ => failAt t.span (.unknownType none)

def ifBody (stmt : Parse (Stmt Tag)) (go : Token → Parse (Stmt Tag)) (keyword : Token) : Parse (Stmt Tag) := do
  let test ← expression
  let (body, last) ← block stmt
  if ← isAt .kwElif then
    let elif ← advance
    let inner ← go elif
    return .ifElse (keyword.span.cover inner.span) test body [inner]
  else if ← take .kwElse then
    let (orElse, last) ← block stmt
    return .ifElse (keyword.span.cover last) test body orElse
  else return .ifElse (keyword.span.cover last) test body []

def stmtBody (inFunction : Bool) (go : Unit → Parse (Stmt Tag)) (_ : Unit) : Parse (Stmt Tag) := do
  let t ← peek
  match t.kind with
  | .kwPass => do
    let _ ← advance
    let _ ← expect .newline
    return .pass t.span
  | .kwReturn =>
    if inFunction then do
      let _ ← advance
      let value ← returnValue
      let _ ← expect .newline
      return .ret (value.elim t.span fun e => t.span.cover e.tag.span) value
    else fail .returnOutsideFunction
  | .kwIf => do
    let keyword ← advance
    ample (ifRest (go ())) keyword
  | .kwWhile => do
    let _ ← advance
    let test ← expression
    let (body, last) ← block (go ())
    return .whileLoop (t.span.cover last) test body
  | .kwFor => do
    let _ ← advance
    let target ← ident
    let _ ← expect .kwIn
    let iter ← expression
    let (body, last) ← block (go ())
    return .forLoop (t.span.cover last) target iter body
  | .indent => fail .unexpectedIndent
  | _ => exprStmt

/-! ## Parsers that agree near the end -/

/-- In front of such a token as `look` says and fewer than `n` tokens the parsers do the same. -/
def Agree (look : Token → Prop) (n : Nat) (x y : Parse α) : Prop :=
  ∀ ⦃c ts⦄, c.At ts → look c.next → c.rest.length < n → x c = y c

variable {look : Token → Prop} {n : Nat}

namespace Agree

variable {x y z : Parse α} {f g : α → Parse β}

theorem refl {x : Parse α} : Agree look n x x := fun _ _ _ _ _ => rfl

theorem symm (h : Agree look n x y) : Agree look n y x := fun _ _ hc hl hn => (h hc hl hn).symm

theorem trans (h : Agree look n x y) (h' : Agree look n y z) : Agree look n x z :=
  fun _ _ hc hl hn => (h hc hl hn).trans (h' hc hl hn)

theorem mono {m : Nat} (h : Agree look n x y) (hmn : m ≤ n) : Agree look m x y :=
  fun _ _ hc hl hm => h hc hl (Nat.lt_of_lt_of_le hm hmn)

theorem any (h : Agree (fun _ => True) n x y) : Agree look n x y := fun _ _ hc _ hn => h hc trivial hn

/-- What comes after parsers that agree has to agree where they stop. -/
theorem bind_of {m : Nat} (hx : Agree look n x y) (hy : Moves (fun _ => True) y)
    (hstop : ∀ ⦃c ts a c'⦄, c.At ts → c.rest.length < n → y c = .ok a c' → c'.rest.length < m)
    (hf : ∀ a, Agree (fun _ => True) m (f a) (g a)) : Agree look n (x >>= f) (y >>= g) := by
  intro c ts hc hl hn
  show EStateM.bind x f c = EStateM.bind y g c
  unfold EStateM.bind
  rw [hx hc hl hn]
  cases hyc : y c with
  | ok a c' => exact hf a (hc.reaches (hy.reaches hyc)) trivial (hstop hc hn hyc)
  | error e c' => rfl

theorem bind (hx : Agree look n x y) (hy : Moves (fun _ => True) y)
    (hf : ∀ a, Agree (fun _ => True) n (f a) (g a)) : Agree look n (x >>= f) (y >>= g) :=
  hx.bind_of hy (fun _ _ _ _ _ hn h => Nat.lt_of_le_of_lt (hy.reaches h).suffix.2.length_le hn) hf

theorem after (hx : Agree look (n + 1) x y) (hy : Moves (fun _ => True) y) (hc : Consumes y)
    (hf : ∀ a, Agree (fun _ => True) n (f a) (g a)) : Agree look (n + 1) (x >>= f) (y >>= g) :=
  hx.bind_of hy (fun _ _ _ _ hc' hn h => Nat.lt_of_lt_of_le (hc hc' h) (Nat.le_of_lt_succ hn)) hf

theorem ite {p : Prop} [Decidable p] {x' y' : Parse α} (hx : Agree look n x x') (hy : Agree look n y y') :
    Agree look n (if p then x else y) (if p then x' else y') := by
  split_ifs
  · exact hx
  · exact hy

theorem peek {f g : Token → Parse α} (h : ∀ t, look t → Agree (· = t) n (f t) (g t)) :
    Agree look n (peek >>= f) (peek >>= g) := fun c _ hc hl hn => h c.next hl hc rfl hn

theorem remaining {f g : Nat → Parse α} (h : ∀ m, Agree look n (f m) (g m)) :
    Agree look n (remaining >>= f) (remaining >>= g) := fun c _ hc hl hn => h c.rest.length hc hl hn

theorem isAt {k : TokenKind} {x' y' : Parse α} (hx : Agree (·.kind = k) n x x') (hy : Agree look n y y') :
    Agree look n (do if ← isAt k then x else y) (do if ← isAt k then x' else y') := by
  intro c ts hc hl hn
  show (if (c.next.kind == k) = true then x else y) c = (if (c.next.kind == k) = true then x' else y') c
  split_ifs with h
  · exact hx hc (by simpa using h) hn
  · exact hy hc hl hn

/-- After a token that is not the end, one token less is enough; the end token is not used up. -/
theorem advance {f g : Token → Parse α} (hend : ∀ t, look t → t.kind = .eof → f t = g t)
    (hother : ∀ t, look t → t.kind ≠ .eof → Agree (fun _ => True) n (f t) (g t)) :
    Agree look (n + 1) (advance >>= f) (advance >>= g) := by
  intro c ts hc hl hn
  rw [run_advance, run_advance]
  obtain ⟨t, us, rfl⟩ := hc.exists_cons
  by_cases heof : c.next.kind = .eof
  · rw [hend c.next hl heof]
  · have hmoved := hc.moved fun ht => heof ((hc.kind_iff rfl).2 ht)
    refine hother c.next hl heof hmoved trivial ?_
    have hlength := hc.length
    have hlength' := hmoved.length
    rw [List.length_cons] at hlength
    omega

theorem known {f g : Token → Parse α} (hlook : ∀ t, look t → t.kind ≠ .eof)
    (h : ∀ t, Agree (fun _ => True) n (f t) (g t)) : Agree look (n + 1) (Parse.advance >>= f) (Parse.advance >>= g) :=
  advance (fun t hl heof => absurd heof (hlook t hl)) fun t _ _ => h t

theorem keyword {f g : Token → Parse α} (hlook : ∀ t, look t → t.kind ≠ .eof)
    (h : ∀ t, Agree (fun _ => True) n (f t) (g t)) : Agree look n (Parse.advance >>= f) (Parse.advance >>= g) :=
  (known hlook h).mono (Nat.le_succ n)

theorem enterName {t : Token} {f g : Ident → Parse α} (h : ∀ x, Agree (fun _ => True) n (f x) (g x)) :
    Agree look n (enterName t >>= f) (enterName t >>= g) :=
  fun _ _ hc _ hn => h ⟨t.name, t.span⟩ ⟨hc.terminals, hc.eof, hc.inside⟩ trivial hn

end Agree

/-! ## Parsers made of parsers that agree -/

section Congruence

variable {item item' : Parse α} (hi : Agree (fun _ => True) n item item') (hm : Moves (fun _ => True) item')
include hi hm

theorem commaItems_agree {openSpan : Span} {close : TokenKind} :
    ∀ m look, Agree look n (commaItems openSpan close item m) (commaItems openSpan close item' m)
  | 0, _ => .bind hi.any hm fun _ => .refl
  | m + 1, _ => .bind hi.any hm fun _ => .bind .refl (.take (by decide)) fun _ => .ite
      (.bind (commaItems_agree m _) (commaItems_moves hm m _) fun _ => .refl) .refl

theorem commaList_agree {openSpan : Span} {close : TokenKind} :
    Agree look n (commaList openSpan close item) (commaList openSpan close item') :=
  .isAt .refl (.remaining fun m => commaItems_agree hi hm m look)

theorem repeatWhile_agree {more : Parse Bool} (hmore : Moves (fun _ => True) more) :
    ∀ m look, Agree look n (repeatWhile more item m) (repeatWhile more item' m)
  | 0, _ => .refl
  | m + 1, _ => .bind .refl hmore fun _ => .ite
      (.bind hi hm fun _ => .bind (repeatWhile_agree hmore m _) (repeatWhile_moves hm hmore m _) fun _ => .refl)
      .refl

end Congruence

section Expressions

variable {sub sub' : Nat → Parse (Expr Tag)} (hs : ∀ p, Agree (fun _ => True) n (sub p) (sub' p))
  (hm : ∀ p, Moves (fun _ => True) (sub' p))
include hs hm

theorem unary_agree {t : Token} {op : UnaryOp} : Agree look n (unary sub t op) (unary sub' t op) :=
  .bind (hs _).any (hm _) fun _ => .refl

theorem named_agree {t : Token} : Agree look n (named sub t) (named sub' t) := by
  refine .enterName fun _ => .isAt (.keyword (fun _ h => h ▸ by decide) fun _ => ?_) .refl
  exact .bind (commaList_agree (hs 0) (hm 0)) (commaList_moves (hm 0)) fun _ => .refl

theorem operand_agree : Agree look (n + 1) (operand sub) (operand sub') := by
  refine .advance (fun t _ ht => ?_) fun t _ ht => ?_
  · rw [Token.literal?_of_isPlain (by rw [ht]; rfl)]
    simp only [ht]
  · split
    · exact .refl
    split
    · exact named_agree hs hm
    · exact .bind (hs 0) (hm 0) fun _ => .refl
    · exact .bind (commaList_agree (hs 0) (hm 0)) (commaList_moves (hm 0)) fun _ => .refl
    · exact unary_agree hs hm
    · exact unary_agree hs hm
    · exact .refl

theorem extend_agree (lhs : Expr Tag) : ∀ k, Agree look n (extend sub lhs k) (extend sub' lhs k)
  | .conditional => .bind (hs _).any (hm _) fun _ => .bind .refl (.expect (by decide)) fun _ =>
      .bind (hs _) (hm _) fun _ => .refl
  | .index => .bind (hs _).any (hm _) fun _ => .refl
  | .binary _ => .bind (hs _).any (hm _) fun _ => .refl

theorem climb_agree (power : Nat) : ∀ m lhs look, Agree look n (climb sub power m lhs) (climb sub' power m lhs)
  | 0, _, _ => .refl
  | m + 1, lhs, _ => by
    refine .peek fun t _ => ?_
    split
    · exact .refl
    · rename_i k hk
      refine .ite .refl (.keyword (fun u hu => hu ▸ ne_of_ofToken? hk rfl) fun _ => ?_)
      exact .bind (extend_agree hs hm lhs k) (extend_moves hm lhs k) fun e => climb_agree power m e _

end Expressions

section Statements

variable {stmt stmt' : Parse (Stmt Tag)} (hs : Agree (fun _ => True) n stmt stmt')
  (hm : Moves (fun _ => True) stmt')
include hs hm

theorem block_agree : Agree look n (block stmt) (block stmt') :=
  .bind .refl (.expect (by decide)) fun _ => .bind .refl (.expect (by decide)) fun _ =>
    .bind .refl indent_moves fun _ => .remaining fun m =>
      .bind (repeatWhile_agree hs hm (.still fun _ => ⟨_, rfl⟩) m _)
        (repeatWhile_moves hm (.still fun _ => ⟨_, rfl⟩) m _) fun _ => .refl

theorem ifRest_agree : ∀ m keyword look, Agree look n (ifRest stmt m keyword) (ifRest stmt' m keyword)
  | 0, _, _ => .refl
  | m + 1, _, _ => .bind .refl expression_moves fun _ => .bind (block_agree hs hm) (block_moves hm) fun _ => .isAt
      (.keyword (fun _ h => h ▸ by decide) fun elif =>
        .bind (ifRest_agree m elif _) (ifRest_moves hm m elif _) fun _ => .refl)
      (.bind .refl (.take (by decide)) fun _ => .ite (.bind (block_agree hs hm) (block_moves hm) fun _ => .refl) .refl)

end Statements

/-! ## Guarded recursions -/

/-- The parsers `bounded n` are the recursion cut off after `n` calls. At the end, where there is nothing left to
call for, the cut does no harm; before it, calls are made with fewer tokens left. -/
structure Guarded (body : (ι → Parse α) → ι → Parse α) (bounded : Nat → ι → Parse α) : Prop where
  succ : ∀ n i, bounded (n + 1) i = body (bounded n) i
  zero : ∀ {c ts} i, c.At ts → c.rest = [] → bounded 0 i c = body (bounded 0) i c
  guard : ∀ {n d g}, (∀ i, Agree (fun _ => True) n (g i) (bounded d i)) →
    ∀ i, Agree (fun _ => True) (n + 1) (body g i) (body (bounded d) i)

namespace Guarded

variable {body : (ι → Parse α) → ι → Parse α} {bounded : Nat → ι → Parse α} (h : Guarded body bounded)
include h

/-- With at most `d` tokens left, a bound of `d` is as good as the next one. -/
theorem agree_succ : ∀ d i, Agree (fun _ => True) (d + 1) (bounded d i) (bounded (d + 1) i)
  | 0, i => by
    intro c ts hc _ hn
    rw [h.succ]
    exact h.zero i hc (List.eq_nil_of_length_eq_zero (by omega))
  | d + 1, i => by
    rw [h.succ (d + 1) i, h.succ d i]
    exact h.guard (agree_succ d) i

theorem agree_of_le {d e : Nat} (hde : d ≤ e) (i : ι) :
    Agree (fun _ => True) (d + 1) (bounded d i) (bounded e i) := by
  induction e, hde using Nat.le_induction with
  | base => exact .refl
  | succ e hde ih => exact ih.trans ((h.agree_succ e i).mono (Nat.succ_le_succ hde))

theorem ample_agree (d : Nat) (i : ι) : Agree (fun _ => True) (d + 1) (ample bounded i) (bounded d i) :=
  fun c _ hc _ hn => h.agree_of_le (Nat.lt_succ_iff.1 hn) i hc trivial (Nat.lt_succ_self c.rest.length)

theorem iterate_agree (g : ι → Parse α) :
    ∀ n i, Agree (fun _ => True) n (body^[n] g i) (ample bounded i)
  | 0, _ => fun _ _ _ _ hn => absurd hn (Nat.not_lt_zero _)
  | n + 1, i => by
    rw [Function.iterate_succ_apply']
    have hcalls : ∀ k, Agree (fun _ => True) n (body^[n] g k) (bounded n k) := fun k =>
      (iterate_agree g n k).trans ((h.ample_agree n k).mono (Nat.le_succ n))
    have hround := h.guard hcalls i
    rw [← h.succ n i] at hround
    exact hround.trans ((h.agree_succ n i).symm.trans (h.ample_agree n i).symm)

theorem terminates {fresh : Bool} (hend : Ended fresh tokens) : Terminates tokens body (ample bounded) := by
  intro i c hc n hn g k
  refine h.iterate_agree g n k (hc.at hend) trivial ?_
  have hlength : c.ahead.length = tokens.length - i := by rw [hc.ahead, List.length_drop]
  rw [Cursor.ahead, List.length_append, List.length_singleton] at hlength
  omega

end Guarded

/-! ## The recursions are guarded -/

theorem run_bind_error {x : Parse α} {f : α → Parse β} {c c' : Cursor} {e : Located SyntaxError}
    (h : x c = .error e c') : (x >>= f) c = .error e c' := by
  show EStateM.bind x f c = _
  unfold EStateM.bind
  rw [h]

theorem whileBody_guarded {more : Parse Bool} {item : Parse α} (h : LoopRules more item) :
    Guarded (whileBody more item) fun n _ => repeatWhile more item n where
  succ _ _ := rfl
  zero _ hc hnil := by
    rw [whileBody, run_bind (h.leaves hc hnil)]
    rfl
  guard hg _ := .bind .refl h.moreMoves fun _ => .ite
    (.after .refl h.itemMoves h.consumes fun _ =>
      .bind (hg ()) (repeatWhile_moves h.itemMoves h.moreMoves _ _) fun _ => .refl) .refl

theorem commaBody_guarded {openSpan : Span} {close : TokenKind} {item : Parse α} (h : IsItem item) :
    Guarded (commaBody openSpan close item) fun n _ => commaItems openSpan close item n where
  succ _ _ := rfl
  zero {c _} _ hc hnil := by
    cases hitem : item c with
    | ok x c' =>
      have hlt := h.consumes hc hitem
      rw [hnil] at hlt
      exact absurd hlt (Nat.not_lt_zero _)
    | error e c' =>
      rw [commaBody, run_bind_error hitem]
      exact run_bind_error hitem
  guard hg _ := .after .refl h.moves h.consumes fun _ => .bind .refl (.take (by decide)) fun _ => .ite
    (.bind (hg ()) (commaItems_moves h.moves _ _) fun _ => .refl) .refl

theorem climbBody_guarded {sub : Nat → Parse (Expr Tag)} (h : NestedExprs sub) (power : Nat) :
    Guarded (climbBody sub power) (climb sub power) where
  succ _ _ := rfl
  zero _ hc hnil := by
    rw [climbBody, run_peek, next_of_nil hnil, hc.eof]
    rfl
  guard hg lhs := by
    refine .peek fun t _ => ?_
    split
    · exact .refl
    · rename_i k hk
      refine .ite .refl (.known (fun u hu => hu ▸ ne_of_ofToken? hk rfl) fun _ => ?_)
      exact .bind .refl (extend_moves h.moves lhs k) hg

theorem exprBody_guarded : Guarded exprBody expr where
  succ _ _ := rfl
  zero _ hc hnil := (run_bind_error (operand_of_nil hc hnil)).symm
  guard {_ d _} hg power :=
    have hm := NestedExprs.moves (.bounded d)
    .after (operand_agree hg hm) (operand_moves hm) (operand_consumes d) fun lhs =>
      .remaining fun m => climb_agree hg hm power m lhs _

theorem typeBody_guarded : Guarded typeBody fun n _ => typeAt n where
  succ _ _ := rfl
  zero {c _} _ hc hnil := by
    have hkind : c.next.kind = .eof := next_of_nil hnil ▸ hc.eof
    rw [typeBody, run_advance, moved_of_nil hc hnil, hkind]
    rfl
  guard {_ d _} hg _ := by
    refine .advance (fun t _ ht => by simp only [ht]) fun t _ _ => ?_
    split
    case h_5 => exact .bind (hg ()) (typeAt_moves d _) fun _ => .refl
    all_goals exact .refl

theorem ifBody_guarded {stmt : Parse (Stmt Tag)} (h : NestedStmts stmt) : Guarded (ifBody stmt) (ifRest stmt) where
  succ _ _ := rfl
  zero _ _ hnil := (run_bind_error (expression_of_nil hnil)).symm
  guard hg _ := .after .refl expression_moves expression_consumes fun _ =>
    .bind .refl (block_moves h.moves) fun _ => .isAt
      (.keyword (fun _ ht => ht ▸ by decide) fun elif => .bind (hg elif) (ifRest_moves h.moves _ elif _) fun _ => .refl)
      .refl

theorem stmtBody_guarded (inFunction : Bool) :
    Guarded (stmtBody inFunction) fun n _ => stmtAt inFunction n where
  succ _ _ := rfl
  zero {c _} _ hc hnil := by
    have hkind : c.next.kind = .eof := next_of_nil hnil ▸ hc.eof
    rw [stmtBody, run_peek, hkind]
    show _ = exprStmt c
    rw [exprStmt, run_bind (isAt_of_nil hc hnil (by decide))]
    exact (run_bind_error (expression_of_nil hnil)).symm
  guard {_ d _} hg _ := by
    have hm := stmtAt_moves inFunction d fun _ => True
    refine .peek fun t _ => ?_
    have hkeyword : t.kind ≠ .eof → ∀ u, u = t → u.kind ≠ .eof := fun ht u hu => hu ▸ ht
    split
    case h_3 hkind =>
      exact .known (hkeyword (by simp [hkind])) fun keyword => .remaining fun m => ifRest_agree (hg ()) hm m keyword _
    case h_4 hkind =>
      exact .known (hkeyword (by simp [hkind])) fun _ => .bind .refl expression_moves fun _ =>
        .bind (block_agree (hg ()) hm) (block_moves hm) fun _ => .refl
    case h_5 hkind =>
      exact .known (hkeyword (by simp [hkind])) fun _ => .bind .refl ident_moves fun _ =>
        .bind .refl (.expect (by decide)) fun _ => .bind .refl expression_moves fun _ =>
        .bind (block_agree (hg ()) hm) (block_moves hm) fun _ => .refl
    all_goals exact .refl

/-! ## Termination -/

/-- All loops and recursions of the parser end in front of the given tokens. -/
structure Termination (tokens : List Token) : Prop where
  whileLoop : ∀ {α : Type} {more : Parse Bool} {item : Parse α}, IsLoop more item →
    Terminates tokens (whileBody more item) (ample fun n _ => repeatWhile more item n)
  commaLoop : ∀ {α : Type} {item : Parse α}, IsItem item → ∀ openSpan close,
    Terminates tokens (commaBody openSpan close item) (ample fun n _ => commaItems openSpan close item n)
  climbLoop : ∀ {sub : Nat → Parse (Expr Tag)}, NestedExprs sub → ∀ power,
    Terminates tokens (climbBody sub power) (ample (climb sub power))
  exprs : Terminates tokens exprBody (ample expr)
  types : Terminates tokens typeBody fun _ => type
  ifs : ∀ {stmt : Parse (Stmt Tag)}, NestedStmts stmt → Terminates tokens (ifBody stmt) (ample (ifRest stmt))
  stmts : ∀ inFunction, Terminates tokens (stmtBody inFunction) fun _ => stmt inFunction

theorem termination {fresh : Bool} (hend : Ended fresh tokens) : Termination tokens where
  whileLoop h := (whileBody_guarded h.rules).terminates hend
  commaLoop h _ _ := (commaBody_guarded h).terminates hend
  climbLoop h power := (climbBody_guarded h power).terminates hend
  exprs := exprBody_guarded.terminates hend
  types := typeBody_guarded.terminates hend
  ifs h := (ifBody_guarded h).terminates hend
  stmts inFunction := (stmtBody_guarded inFunction).terminates hend

end Parse

theorem parseWith_answers {α : Type} (x : Parse α) {source : String} {tokens : List Token}
    (h : readTokens source = .ok tokens) (names : NameTable) :
    (∃ a, (parseWith x names source).1 = .ok a) ∨
      ∃ span e, (parseWith x names source).1 = .error ⟨span, .grammatical e⟩ := by
  unfold parseWith
  rw [h]
  show (∃ a, phase .grammatical (x.run names tokens).1 = .ok a) ∨
    ∃ span e, phase .grammatical (x.run names tokens).1 = .error ⟨span, .grammatical e⟩
  cases (x.run names tokens).1 with
  | ok a => exact .inl ⟨a, rfl⟩
  | error e => exact .inr ⟨e.span, e.value, rfl⟩

/-- A source that is a program and no expression. -/
def nestedSource : String := "if x:\n    f([y, 1])\n"

end ChocoCompiler
