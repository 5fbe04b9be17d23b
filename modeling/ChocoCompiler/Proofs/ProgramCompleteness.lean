import ChocoCompiler.Proofs.ProgramGrammar

/-!
# What the program parser has to accept

The other direction. If the expressions of a program are written by the levels, the parser succeeds in front
of the terminals that the grammar has for the program, reads them all and gives the program back
(`program_takes`). Two things must be seen to: the parser must not take a statement for a definition, and
it must not take what follows a conditional statement for one of its branches (`EndsIf`).
-/

namespace ChocoCompiler

variable {τ : Type}

/-! ## How statements start -/

/-- Whether a statement can start with the terminal. -/
def Terminal.startsStmt : Terminal → Bool
  | .literal _ | .name _ => true
  | .kind k => (Terminal.kind k).startsExpr || [.kwPass, .kwReturn, .kwIf, .kwWhile, .kwFor].contains k

theorem Terminal.startsStmt_of_startsExpr {t : Terminal} (h : t.startsExpr = true) : t.startsStmt = true := by
  cases t with
  | kind k => exact Bool.or_eq_true_iff.2 (.inl h)
  | _ => rfl

/-- No branch of a conditional statement follows. -/
def EndsIf (us : List Terminal) : Prop :=
  ∃ t vs, us = t :: vs ∧ t ≠ .kind .kwElif ∧ t ≠ .kind .kwElse

/-- What follows is not part of an expression. -/
def EndsExpr (us : List Terminal) : Prop :=
  ∃ t vs, us = t :: vs ∧ t.continuation? = none ∧ t ≠ .kind .lparen

section Starts

variable {e : Expr τ} {s : Stmt τ} {ts us : List Terminal}

theorem Parse.startsVarDef_iff :
    Parse.startsVarDef ts = true ↔ ∃ x us, ts = .name x :: .kind .colon :: us := by
  constructor
  · intro h
    unfold startsVarDef at h
    split at h
    · exact ⟨_, _, rfl⟩
    · cases h
  · rintro ⟨x, us, rfl⟩
    rfl

theorem Expr.Written.not_startsVarDef {loose : Bool} {q : Nat} (h : e.Written loose q ts)
    (hu : us.head? ≠ some (.kind .colon)) : Parse.startsVarDef (ts ++ us) = false := by
  by_contra hv
  rw [Bool.not_eq_false] at hv
  obtain ⟨x, vs, hv⟩ := Parse.startsVarDef_iff.1 hv
  obtain ⟨t, ts, rfl, -⟩ := h.exists_cons
  obtain ⟨-, hv⟩ := List.cons.inj hv
  cases ts with
  | nil => exact hu (congrArg List.head? hv)
  | cons u ts =>
    obtain ⟨rfl, -⟩ := List.cons.inj hv
    cases h.isExprSign (List.mem_cons_of_mem _ (List.mem_cons_self ..))

theorem Stmt.Derives.exists_cons (h : s.Derives (Expr.Written false 0) ts) :
    ∃ t ts', ts = t :: ts' ∧ t.startsStmt = true := by
  cases h with
  | expr _ he =>
    obtain ⟨t, ts, rfl, ht⟩ := he.exists_cons
    exact ⟨t, _, rfl, Terminal.startsStmt_of_startsExpr ht⟩
  | assign _ targets hne h =>
    obtain ⟨i, targets, rfl⟩ := List.exists_cons_of_ne_nil hne
    obtain ⟨t, us, hus, ht⟩ := (h i (List.mem_cons_self ..)).exists_cons
    exact ⟨t, _, by rw [List.flatMap_cons, hus]; rfl, Terminal.startsStmt_of_startsExpr ht⟩
  | _ => exact ⟨_, _, rfl, rfl⟩

theorem Stmt.Derives.not_startsVarDef (h : s.Derives (Expr.Written false 0) ts) :
    Parse.startsVarDef (ts ++ us) = false := by
  cases h with
  | expr _ he =>
    rw [List.append_assoc]
    exact he.not_startsVarDef (by simp)
  | assign _ targets hne h =>
    obtain ⟨i, targets, rfl⟩ := List.exists_cons_of_ne_nil hne
    rw [List.flatMap_cons, List.append_assoc, List.append_assoc, List.append_assoc]
    exact (h i (List.mem_cons_self ..)).not_startsVarDef (by simp)
  | _ => rfl

theorem Stmt.Derives.endsIf (h : s.Derives (Expr.Written false 0) ts) : EndsIf (ts ++ us) := by
  obtain ⟨t, ts, rfl, ht⟩ := h.exists_cons
  refine ⟨t, ts ++ us, rfl, ?_, ?_⟩ <;> rintro rfl <;> cases ht

theorem Definition.Derives.ne_nil {d : Definition τ} (h : d.Derives (Expr.Written false 0) ts) : ts ≠ [] := by
  cases d with
  | var d =>
    obtain rfl : ts = _ := h
    exact List.cons_ne_nil _ _
  | func f =>
    obtain ⟨-, _, -, rfl⟩ := h
    exact List.cons_ne_nil _ _

end Starts

namespace Parse

variable {us : List Terminal}

/-! ## Declarations -/

theorem typeAt_takes : ∀ (t : TypeExpr) {depth : Nat} {us : List Terminal}, t.terminals.length ≤ depth →
    Takes (typeAt depth) t.terminals us (·.bare = t.bare)
  | .named n _, depth + 1, _, _ => by
    refine .next (.advance (by cases n <;> simp [NamedType.keyword])) fun tok htok => ?_
    have hk := Token.kind_of_terminal htok
    cases n <;> (simp only [hk, NamedType.keyword]; exact .pure rfl)
  | .list elem _, depth + 1, _, hd => by
    refine .next (.advance (by simp)) fun tok htok => ?_
    simp only [Token.kind_of_terminal htok]
    have hdepth : elem.terminals.length ≤ depth := by
      simp only [TypeExpr.terminals, List.length_cons, List.length_append] at hd
      omega
    refine .bind (typeAt_takes elem hdepth) fun t ht => .next (.expect rfl (by decide)) fun _ _ => .pure ?_
    rw [TypeExpr.bare, ht, TypeExpr.bare]

theorem type_takes (t : TypeExpr) (hu : us ≠ []) : Takes type t.terminals us (·.bare = t.bare) := by
  refine .look .remaining fun n hn => typeAt_takes t ?_
  have hpos := List.length_pos_of_ne_nil hu
  rw [List.length_append] at hn
  omega

theorem typedVar_takes (v : TypedVar) (hu : us ≠ []) : Takes typedVar v.terminals us (·.bare = v.bare) :=
  .next .ident fun x hx => .next (.expect rfl (by decide)) fun _ _ => .last (type_takes v.type hu) fun t ht =>
    .pure (by rw [TypedVar.bare, Ident.bare_eq hx, ht]; rfl)

theorem varDef_takes (d : VarDef τ) : Takes varDef d.terminals us (·.bare = d.bare) := by
  refine .bind (typedVar_takes d.var (List.cons_ne_nil _ _)) fun v hv => ?_
  refine .next (.expect rfl (by decide)) fun _ _ => .look .peek fun t ht => ?_
  simp only [Token.terminal_eq_literal.1 ht]
  refine .next (.advance (by simp)) fun _ _ => .look (.pure rfl) fun w hw => .look .node fun e he => ?_
  refine .next (.expect rfl (by decide)) fun _ _ => .pure ?_
  rw [VarDef.bare, hv, ← hw]
  rfl

theorem declaration_takes (d : Declaration τ) : Takes declaration d.terminals us (·.bare = d.bare) := by
  cases d with
  | var d =>
    refine .look (.take_ne rfl (by simp)) fun _ hb => ?_
    rw [hb]
    refine .look (.take_ne rfl (by simp)) fun _ hb => ?_
    rw [hb]
    exact .last (varDef_takes d) fun d' hd => .pure (congrArg Declaration.var hd)
  | global x =>
    refine .next (.take rfl (by decide)) fun _ hb => ?_
    rw [hb]
    refine .next .ident fun y hy => .next (.expect rfl (by decide)) fun _ _ => .pure ?_
    exact congrArg Declaration.global (Ident.bare_eq hy)
  | nonlocal x =>
    refine .look (.take_ne rfl (by simp)) fun _ hb => ?_
    rw [hb]
    refine .next (.take rfl (by decide)) fun _ hb => ?_
    rw [hb]
    refine .next .ident fun y hy => .next (.expect rfl (by decide)) fun _ _ => .pure ?_
    exact congrArg Declaration.nonlocal (Ident.bare_eq hy)

/-! ## Statements -/

section Statements

variable {inFunction : Bool} {depth n : Nat} {ts : List Terminal}

theorem length_le_flatMap {α : Type} {f : α → List Terminal} {items : List α} (h : ∀ i ∈ items, f i ≠ []) :
    items.length ≤ (items.flatMap f).length := by
  induction items with
  | nil => rfl
  | cons i items ih =>
    obtain ⟨hi, h⟩ := List.forall_mem_cons.1 h
    have hpos := List.length_pos_of_ne_nil hi
    have hle := ih h
    rw [List.flatMap_cons, List.length_append, List.length_cons]
    omega

theorem length_le_of_mem {α : Type} {f : α → List Terminal} {items : List α} {i : α} (h : i ∈ items) :
    (f i).length ≤ (items.flatMap f).length := by
  obtain ⟨l₁, l₂, rfl⟩ := List.append_of_mem h
  simp only [List.flatMap_append, List.flatMap_cons, List.length_append]
  omega

theorem repeatItems {α β γ : Type} {more : Parse Bool} {item : Parse α} {f : β → List Terminal} {g : α → γ}
    {g' : β → γ} {items : List β} (Ok : List Terminal → Prop) (hend : Takes more [] us (· = false))
    (hok : Ok us) (hn : (items.flatMap f).length ≤ n)
    (h : ∀ b ∈ items, f b ≠ [] ∧ ∀ vs, Ok vs → Ok (f b ++ vs) ∧ Takes more [] (f b ++ vs) (· = true) ∧
      Takes item (f b) vs (g · = g' b)) :
    Takes (repeatWhile more item n) (items.flatMap f) us (·.map g = items.map g') := by
  have hlen := length_le_flatMap fun b hb => (h b hb).1
  have hitems := @Takes.repeatWhile _ _ us more item (fun b a => g a = g' b) f [] Ok hend hok items n
    (Nat.le_trans hlen hn) fun b hb => (h b hb).2
  exact hitems.mono fun as has => map_eq_of_forall₂ has fun _ _ h => h

theorem kind_ne_of_startsStmt {tok : Token} {t : Terminal} {k : TokenKind} (htok : tok.terminal = t)
    (ht : t.startsStmt = true) (hp : k.isPlain = true) (hk : (Terminal.kind k).startsStmt = false) :
    tok.kind ≠ k := by
  intro h
  rw [← htok, (Token.terminal_eq_kind hp).2 h, hk] at ht
  cases ht

theorem inBody_stmt {t : Terminal} (ht : t.startsStmt = true) : Takes inBody [] (t :: us) (· = true) := by
  refine .look .peek fun tok htok => .pure ?_
  rw [Bool.and_eq_true, bne_iff_ne, bne_iff_ne]
  exact ⟨kind_ne_of_startsStmt htok ht rfl rfl, kind_ne_of_startsStmt htok ht rfl rfl⟩

theorem inBody_dedent : Takes inBody [] (.kind .dedent :: us) (· = false) :=
  .look .peek fun tok htok => .pure (by rw [Token.kind_of_terminal htok]; rfl)

theorem indent_takes : Takes indent [.kind .indent] us fun _ => True :=
  .last (.take rfl (by decide)) fun _ hb => by
    rw [hb]
    exact .pure trivial

theorem lastSpan_takes {body : List (Stmt Tag)} (h : body ≠ []) :
    Takes (lastSpan body) [] us fun _ => True := by
  unfold lastSpan
  rw [List.getLast?_eq_some_getLast h]
  exact .pure trivial

theorem ne_nil_of_allBare {ss : List (Stmt Tag)} {ss' : List (Stmt τ)}
    (h : Stmt.allBare ss = Stmt.allBare ss') (hne : ss' ≠ []) : ss ≠ [] := by
  rintro rfl
  cases ss' with
  | nil => exact hne rfl
  | cons s ss' => cases h

theorem body_takes {stmt : Parse (Stmt Tag)} {items : List (Stmt τ × List Terminal)}
    (hd : ∀ i ∈ items, i.1.Derives (Expr.Written false 0) i.2)
    (h : ∀ i ∈ items, ∀ us, EndsIf us → Takes stmt i.2 us (·.bare = i.1.bare))
    (hn : (items.flatMap Prod.snd).length ≤ n) :
    Takes (repeatWhile inBody stmt n) (items.flatMap Prod.snd) (.kind .dedent :: us)
      (Stmt.allBare · = Stmt.allBare (items.map Prod.fst)) := by
  have hok : EndsIf (.kind .dedent :: us) := ⟨_, us, rfl, by simp, by simp⟩
  simp only [Stmt.allBare_eq_map, List.map_map]
  refine repeatItems EndsIf inBody_dedent hok hn fun i hi => ⟨(hd i hi).ne_nil, fun vs hvs => ?_⟩
  obtain ⟨t, ts, hts, ht⟩ := (hd i hi).exists_cons
  exact ⟨(hd i hi).endsIf, hts ▸ inBody_stmt ht, h i hi vs hvs⟩

/-- What is to be shown of the terminals of a statement. What follows the first `if` is stated by itself,
since it can follow an `elif` as well. -/
structure TakesStmt (inFunction : Bool) (s : Stmt τ) (ts : List Terminal) : Prop where
  stmt : ∀ {depth us}, ts.length ≤ depth → EndsIf us → Takes (stmtAt inFunction depth) ts us (·.bare = s.bare)
  rest : ∀ {ts'}, ts = .kind .kwIf :: ts' → ∀ {depth n keyword us}, ts'.length ≤ depth → ts'.length ≤ n →
    EndsIf us → Takes (ifRest (stmtAt inFunction depth) n keyword) ts' us (·.bare = s.bare)

theorem block_takes {items : List (Stmt τ × List Terminal)} (hne : items ≠ [])
    (hd : ∀ i ∈ items, i.1.Derives (Expr.Written false 0) i.2)
    (h : ∀ i ∈ items, TakesStmt inFunction i.1 i.2) (hn : (inBlock (items.flatMap Prod.snd)).length ≤ depth) :
    Takes (block (stmtAt inFunction depth)) (inBlock (items.flatMap Prod.snd)) us
      (Stmt.allBare ·.1 = Stmt.allBare (items.map Prod.fst)) := by
  simp only [inBlock, List.length_cons, List.length_append] at hn
  refine .next (.expect rfl (by decide)) fun _ _ => .next (.expect rfl (by decide)) fun _ _ => ?_
  refine .next indent_takes fun _ _ => .look .remaining fun n hrest => ?_
  rw [List.length_append, List.length_append, List.length_singleton] at hrest
  have hstmt : ∀ i ∈ items, ∀ us, EndsIf us → Takes (stmtAt inFunction depth) i.2 us (·.bare = i.1.bare) := by
    intro i hi us hus
    have hlen := length_le_of_mem (f := Prod.snd) hi
    exact (h i hi).stmt (by omega) hus
  refine .bind (body_takes hd hstmt (by omega)) fun body hbody => ?_
  have hbody' := ne_nil_of_allBare hbody (by simpa using hne)
  exact .look (lastSpan_takes hbody') fun last _ => .next (.expect rfl (by decide)) fun _ _ => .pure hbody

theorem TakesStmt.ofIf {s : Stmt τ} (hne : ts ≠ [])
    (h : ∀ {depth n keyword us}, ts.length ≤ depth → ts.length ≤ n + 1 → EndsIf us →
      Takes (ifRest (stmtAt inFunction depth) (n + 1) keyword) ts us (·.bare = s.bare)) :
    TakesStmt inFunction s (.kind .kwIf :: ts) := by
  have hrest : ∀ {depth n keyword us}, ts.length ≤ depth → ts.length ≤ n → EndsIf us →
      Takes (ifRest (stmtAt inFunction depth) n keyword) ts us (·.bare = s.bare) := by
    intro depth n keyword us hd hn hus
    have hpos := List.length_pos_of_ne_nil hne
    obtain ⟨n, rfl⟩ : ∃ m, n = m + 1 := ⟨n - 1, by omega⟩
    exact h hd hn hus
  refine ⟨fun {depth us} hd hus => ?_, fun he => (List.cons.inj he).2 ▸ hrest⟩
  rw [List.length_cons] at hd
  obtain ⟨depth, rfl⟩ : ∃ d, depth = d + 1 := ⟨depth - 1, by omega⟩
  refine .look .peek fun tok htok => ?_
  simp only [Token.kind_of_terminal htok]
  refine .next (.advance (by simp)) fun keyword _ => .look .remaining fun n hn => ?_
  have hlen : 0 < us.length := by
    obtain ⟨t, vs, rfl, -⟩ := hus
    exact Nat.succ_pos _
  rw [List.length_append] at hn
  exact hrest (by omega) (by omega) hus

theorem TakesStmt.ofOther {s : Stmt τ} {t : Terminal} (ht : t ≠ .kind .kwIf)
    (h : ∀ {depth us}, ts.length ≤ depth →
      Takes (stmtAt inFunction (depth + 1)) (t :: ts) us (·.bare = s.bare)) :
    TakesStmt inFunction s (t :: ts) where
  stmt {depth us} hd _ := by
    rw [List.length_cons] at hd
    obtain ⟨depth, rfl⟩ : ∃ d, depth = d + 1 := ⟨depth - 1, by omega⟩
    exact h (by omega)
  rest he := absurd (List.cons.inj he).1 ht

section ifRest

variable {stmt : Parse (Stmt Tag)} {keyword : Token} {test : Expr τ} {body orElse : List (Stmt τ)}
  {inner : Stmt τ} {bs vs : List Terminal} {span : Span}

theorem ifRest_ifThen (ht : test.Written false 0 ts) (hu : EndsIf us)
    (hb : ∀ us, Takes (block stmt) (inBlock bs) us (Stmt.allBare ·.1 = Stmt.allBare body)) :
    Takes (ifRest stmt (n + 1) keyword) (ts ++ inBlock bs) us
      (·.bare = (Stmt.ifElse span test body []).bare) := by
  obtain ⟨t, us, rfl, helif, helse⟩ := hu
  refine .bind (expression_takes ht rfl (by simp)) fun test' htest => .last (hb _) fun b hb => ?_
  refine .look (.isAt rfl) fun _ hat => ?_
  rw [hat, if_neg (by simpa using helif)]
  refine .look (.take_ne rfl helse) fun _ hat => ?_
  rw [hat]
  refine .pure ?_
  simp only [Stmt.bare, htest, hb, Stmt.allBare]

theorem ifRest_ifElse (ht : test.Written false 0 ts)
    (hb : ∀ us, Takes (block stmt) (inBlock bs) us (Stmt.allBare ·.1 = Stmt.allBare body))
    (he : Takes (block stmt) vs us (Stmt.allBare ·.1 = Stmt.allBare orElse)) :
    Takes (ifRest stmt (n + 1) keyword) (ts ++ (inBlock bs ++ .kind .kwElse :: vs)) us
      (·.bare = (Stmt.ifElse span test body orElse).bare) := by
  refine .bind (expression_takes ht rfl (by simp)) fun test' htest => .bind (hb _) fun b hb => ?_
  refine .look (.isAt rfl) fun _ hat => ?_
  rw [hat, if_neg (by simp)]
  refine .next (.take rfl (by decide)) fun _ hat => ?_
  rw [hat]
  refine .last he fun b' hb' => .pure ?_
  simp only [Stmt.bare, htest, hb, hb']

theorem ifRest_ifElif (ht : test.Written false 0 ts)
    (hb : ∀ us, Takes (block stmt) (inBlock bs) us (Stmt.allBare ·.1 = Stmt.allBare body))
    (hi : ∀ keyword, Takes (ifRest stmt n keyword) vs us (·.bare = inner.bare)) :
    Takes (ifRest stmt (n + 1) keyword) (ts ++ (inBlock bs ++ .kind .kwElif :: vs)) us
      (·.bare = (Stmt.ifElse span test body [inner]).bare) := by
  refine .bind (expression_takes ht rfl (by simp)) fun test' htest => .bind (hb _) fun b hb => ?_
  refine .look (.isAt rfl) fun _ hat => ?_
  rw [hat, if_pos (by simp)]
  refine .next (.advance (by simp)) fun elif _ => .last (hi elif) fun inner' hinner => .pure ?_
  simp only [Stmt.bare, htest, hb, hinner, Stmt.allBare]

end ifRest

section exprStmt

variable {e : Expr τ}

theorem isAt_written {k : TokenKind} (h : e.Written false 0 ts) (hp : k.isPlain = true)
    (hk : (Terminal.kind k).startsExpr = false) : Takes (isAt k) [] (ts ++ us) (· = false) := by
  obtain ⟨t, ts, rfl, ht⟩ := h.exists_cons
  refine (Takes.isAt hp).mono fun b hb => hb.trans (decide_eq_false ?_)
  rintro rfl
  rw [hk] at ht
  cases ht

theorem assigned_takes (h : e.Written false 0 ts) (hu : EndsExpr us) :
    Takes assigned ts us (·.bare = e.bare) := by
  refine .look (isAt_written h rfl rfl) fun _ hb => ?_
  obtain ⟨t, us, rfl, hcont, hparen⟩ := hu
  rw [hb]
  exact expression_takes h hcont hparen

theorem exprStmt_takes {Q : Stmt Tag → Prop} (items : List (Expr τ × List Terminal))
    (he : e.Written false 0 ts) (hi : ∀ i ∈ items, i.1.Written false 0 i.2)
    (hQ : ∀ (first : Expr Tag) (values : List (Expr Tag)), first.bare = e.bare →
      values.map Expr.bare = items.map (·.1.bare) → Takes (match values.getLast? with
        | none => pure (.expr first.tag.span first)
        | some value => pure (.assign (first.tag.span.cover value.tag.span) (first :: values.dropLast) value))
          [] us Q) :
    Takes exprStmt (ts ++ (items.flatMap (.kind .assign :: ·.2) ++ [.kind .newline])) us Q := by
  refine .look (List.append_assoc .. ▸ isAt_written he rfl rfl) fun _ hb => ?_
  rw [hb]
  have hok : EndsExpr (.kind .newline :: us) := ⟨_, us, rfl, rfl, by simp⟩
  have hsign : ∀ us, EndsExpr (.kind .assign :: us) := fun us => ⟨_, us, rfl, rfl, by simp⟩
  -- an expression ends at the next equals sign or at the end of the line
  have hnext : EndsExpr (items.flatMap (.kind .assign :: ·.2) ++ [.kind .newline] ++ us) := by
    rw [List.append_assoc]
    cases items with
    | nil => exact hok
    | cons i items => exact hsign _
  obtain ⟨t, vs, hvs, hcont, hparen⟩ := hnext
  refine .bind (hvs ▸ expression_takes he hcont hparen) fun first hfirst => .look .remaining fun n hn => ?_
  have hvalues : Takes (repeatWhile (take .assign) assigned n) (items.flatMap (.kind .assign :: ·.2))
      (.kind .newline :: us) (List.Forall₂ (fun i a => a.bare = i.1.bare) items) := by
    refine @Takes.repeatWhile _ _ _ _ _ _ Prod.snd [.kind .assign] EndsExpr (.take_ne rfl (by simp)) hok
      items n ?_ fun i hi' vs hvs => ⟨hsign _, .take rfl (by decide), assigned_takes (hi i hi') hvs⟩
    have hlen : items.length ≤ (items.flatMap (.kind .assign :: ·.2)).length :=
      length_le_flatMap fun _ _ => List.cons_ne_nil _ _
    rw [List.length_append, List.length_append, List.length_singleton] at hn
    omega
  refine .bind hvalues fun values hvalues => .next (.expect rfl (by decide)) fun _ _ => ?_
  exact hQ first values hfirst (map_eq_of_forall₂ hvalues fun _ _ h => h)

end exprStmt

theorem TakesStmt.ofExprStmt {s : Stmt τ} {e : Expr τ} {vs : List Terminal} (he : e.Written false 0 ts)
    (h : ∀ us, Takes exprStmt (ts ++ vs) us (·.bare = s.bare)) : TakesStmt inFunction s (ts ++ vs) := by
  obtain ⟨t, ts, rfl, ht⟩ := he.exists_cons
  have hne : ∀ k, k.isPlain = true → (Terminal.kind k).startsExpr = false → t ≠ .kind k := by
    rintro k _ hk rfl
    rw [hk] at ht
    cases ht
  refine .ofOther (hne _ rfl rfl) fun _ => .look .peek fun tok htok => ?_
  cases hk : tok.kind with
  | kwPass | kwReturn | kwIf | kwWhile | kwFor | indent =>
    exact absurd (htok ▸ (Token.terminal_eq_kind rfl).2 hk) (hne _ rfl rfl)
  | _ => exact h _

theorem returnValue_none : Takes returnValue [] (.kind .newline :: us)
    (·.map Expr.bare = (none : Option (Expr τ)).map Expr.bare) := by
  refine .look (.isAt rfl) fun _ hb => ?_
  rw [hb, if_pos (by simp)]
  exact .pure rfl

theorem TakesStmt.ofReturn {span : Span} {e : Option (Expr τ)}
    (h : ∀ us, Takes returnValue ts (.kind .newline :: us) (·.map Expr.bare = e.map Expr.bare)) :
    TakesStmt true (.ret span e) (.kind .kwReturn :: (ts ++ [.kind .newline])) := by
  refine .ofOther (by simp) fun _ => .look .peek fun tok htok => ?_
  simp only [Token.kind_of_terminal htok, if_true]
  refine .next (.advance (by simp)) fun _ _ => .bind (h _) fun v hv => ?_
  exact .next (.expect rfl (by decide)) fun _ _ => .pure (congrArg (Stmt.ret default) hv)

theorem TakesStmt.ofAssign {span : Span} {e : Expr τ} {targets : List (Expr τ × List Terminal)}
    (hne : targets ≠ []) (h : ∀ i ∈ targets, i.1.Written false 0 i.2) (he : e.Written false 0 ts) :
    TakesStmt inFunction (.assign span (targets.map Prod.fst) e)
      (targets.flatMap (·.2 ++ [.kind .assign]) ++ (ts ++ [.kind .newline])) := by
  obtain ⟨i, targets, rfl⟩ := List.exists_cons_of_ne_nil hne
  obtain ⟨hi, h⟩ := List.forall_mem_cons.1 h
  have hterminals : (i :: targets).flatMap (·.2 ++ [.kind .assign]) ++ (ts ++ [.kind .newline]) =
      i.2 ++ ((targets ++ [(e, ts)]).flatMap (.kind .assign :: ·.2) ++ [.kind .newline]) := by
    have hsigns := flatMap_signs (.kind .assign) Prod.snd targets
    rw [List.flatMap_cons, List.append_assoc, List.append_assoc, List.singleton_append, ← List.cons_append,
      ← hsigns]
    simp
  rw [hterminals]
  have hitems : ∀ i ∈ targets ++ [(e, ts)], i.1.Written false 0 i.2 :=
    List.forall_mem_append.2 ⟨h, List.forall_mem_singleton.2 he⟩
  refine .ofExprStmt hi fun us => exprStmt_takes _ hi hitems fun first values hfirst hvalues => ?_
  rw [List.map_append, List.map_singleton] at hvalues
  obtain ⟨values, last, rfl, hinit, hlast⟩ := List.map_eq_append_iff.1 hvalues
  obtain ⟨value, rfl, hvalue⟩ := List.map_eq_singleton_iff.1 hlast
  rw [List.getLast?_concat, List.dropLast_concat]
  refine .pure ?_
  simp only [Stmt.bare, Expr.allBare_eq_map, List.map_cons, hfirst, hinit, hvalue, List.map_map]
  rfl

/-- A statement is parsed from its terminals, if it returns from functions only. -/
theorem TakesStmt.ofDerives {s : Stmt τ} (h : s.Derives (Expr.Written false 0) ts)
    (hr : s.hasReturn = true → inFunction = true) : TakesStmt inFunction s ts := by
  have hreturns : ∀ {items : List (Stmt τ × List Terminal)},
      (Stmt.anyReturn (items.map Prod.fst) = true → inFunction = true) →
      ∀ i ∈ items, i.1.hasReturn = true → inFunction = true :=
    fun hr _ hi h => hr (Stmt.anyReturn_iff.2 ⟨_, List.mem_map_of_mem hi, h⟩)
  -- the bounds are enough for inner statements too, which have fewer terminals
  induction h with
  | pass =>
    refine .ofOther (by simp) fun _ => .look .peek fun tok htok => ?_
    simp only [Token.kind_of_terminal htok]
    exact .next (.advance (by simp)) fun _ _ => .next (.expect rfl (by decide)) fun _ _ => .pure rfl
  | retNone =>
    obtain rfl := hr rfl
    exact .ofReturn fun us => returnValue_none
  | ret s he =>
    obtain rfl := hr rfl
    refine .ofReturn fun us => .look (isAt_written he rfl rfl) fun _ hb => ?_
    rw [hb]
    exact .last (expression_takes he rfl (by simp)) fun e he => .pure (congrArg some he)
  | expr s he =>
    refine .ofExprStmt he fun us => exprStmt_takes [] he nofun fun first values hfirst hvalues => ?_
    obtain rfl := List.map_eq_nil_iff.1 hvalues
    exact .pure (congrArg (Stmt.expr default) hfirst)
  | assign s targets hne h he => exact .ofAssign hne h he
  | whileLoop s body ht hne hd ih =>
    refine .ofOther (by simp) fun hdepth => .look .peek fun tok htok => ?_
    simp only [Token.kind_of_terminal htok]
    rw [List.length_append] at hdepth
    have hbody := fun i hi => ih i hi (hreturns hr i hi)
    refine .next (.advance (by simp)) fun _ _ => ?_
    refine .bind (expression_takes ht rfl (by simp)) fun test htest => ?_
    refine .last (block_takes hne hd hbody (by omega)) fun b hb => .pure ?_
    simp only [Stmt.bare, htest, hb]
  | forLoop s x body ht hne hd ih =>
    refine .ofOther (by simp) fun hdepth => .look .peek fun tok htok => ?_
    simp only [Token.kind_of_terminal htok]
    simp only [List.length_append, List.length_cons] at hdepth
    have hbody := fun i hi => ih i hi (hreturns hr i hi)
    refine .next (.advance (by simp)) fun _ _ => .next .ident fun y hy => ?_
    refine .next (.expect rfl (by decide)) fun _ _ => ?_
    refine .bind (expression_takes ht rfl (by simp)) fun test htest => ?_
    refine .last (block_takes hne hd hbody (by omega)) fun b hb => .pure ?_
    simp only [Stmt.bare, htest, hb, Ident.bare_eq hy]
  | ifThen s body ht hne hd ih =>
    refine .ofIf (List.append_ne_nil_of_left_ne_nil ht.ne_nil _) fun hdepth _ hus => ?_
    rw [List.length_append] at hdepth
    have hbody := fun i hi => ih i hi (hreturns (fun h => hr (Bool.or_eq_true_iff.2 (.inl h))) i hi)
    exact ifRest_ifThen ht hus fun us => block_takes hne hd hbody (by omega)
  | ifElse s body orElse ht hne hd hne' hd' ih ih' =>
    refine .ofIf (List.append_ne_nil_of_left_ne_nil ht.ne_nil _) fun hdepth _ _ => ?_
    simp only [List.length_append, List.length_cons] at hdepth
    have hbody := fun i hi => ih i hi (hreturns (fun h => hr (Bool.or_eq_true_iff.2 (.inl h))) i hi)
    have horElse := fun i hi => ih' i hi (hreturns (fun h => hr (Bool.or_eq_true_iff.2 (.inr h))) i hi)
    exact ifRest_ifElse ht (fun us => block_takes hne hd hbody (by omega))
      (block_takes hne' hd' horElse (by omega))
  | ifElif s body ht hne hd hi ih ih' =>
    refine .ofIf (List.append_ne_nil_of_left_ne_nil ht.ne_nil _) fun hdepth hn hus => ?_
    simp only [List.length_append, List.length_cons] at hdepth hn
    have hbody := fun i hi => ih i hi (hreturns (fun h => hr (Bool.or_eq_true_iff.2 (.inl h))) i hi)
    have hinner := ih' fun h => hr (Bool.or_eq_true_iff.2 (.inr (Bool.or_eq_true_iff.2 (.inl h))))
    exact ifRest_ifElif ht (fun us => block_takes hne hd hbody (by omega)) fun _ =>
      hinner.rest rfl (by omega) (by omega) hus

end Statements

/-! ## Definitions -/

section Definitions

variable {ts : List Terminal} {inFunction : Bool} {s : Stmt τ}

theorem stmt_takes (h : s.Derives (Expr.Written false 0) ts) (hr : s.hasReturn = true → inFunction = true)
    (hu : EndsIf us) : Takes (stmt inFunction) ts us (·.bare = s.bare) := by
  refine .look .remaining fun n hn => (TakesStmt.ofDerives h hr).stmt ?_ hu
  obtain ⟨t, vs, rfl, -⟩ := hu
  rw [List.length_append, List.length_cons] at hn
  omega

theorem isAtDeclaration_takes {t : Terminal} : Takes isAtDeclaration [] (t :: us)
    (· = (startsVarDef (t :: us) || decide (t = .kind .kwGlobal) || decide (t = .kind .kwNonlocal))) := by
  refine .look .peek fun tok htok => .look .isAtVarDef fun b hb => .pure ?_
  have hkind : ∀ k, k.isPlain = true → (tok.kind == k) = decide (t = .kind k) := by
    intro k hp
    rw [← htok, beq_eq_decide, decide_eq_decide, Token.terminal_eq_kind hp]
  rw [hb, hkind _ rfl, hkind _ rfl]
  rfl

theorem isAtDefinition_takes {t : Terminal} : Takes isAtDefinition [] (t :: us)
    (· = (startsVarDef (t :: us) || decide (t = .kind .kwDef))) :=
  .look .isAtVarDef fun b hb => .look (.isAt rfl) fun b' hb' => .pure (by rw [hb, hb']; rfl)

theorem looks_at_stmt (h : s.Derives (Expr.Written false 0) ts) :
    Takes isAtDeclaration [] (ts ++ us) (· = false) ∧ Takes isAtDefinition [] (ts ++ us) (· = false) := by
  have hv : startsVarDef (ts ++ us) = false := h.not_startsVarDef
  obtain ⟨t, ts, rfl, ht⟩ := h.exists_cons
  rw [List.cons_append] at hv ⊢
  have hne : ∀ k, (Terminal.kind k).startsStmt = false → decide (t = .kind k) = false := by
    intro k hk
    refine decide_eq_false ?_
    rintro rfl
    rw [hk] at ht
    cases ht
  constructor
  · refine isAtDeclaration_takes.mono fun b hb => ?_
    rw [hb, hv, hne _ rfl, hne _ rfl]
    rfl
  · refine isAtDefinition_takes.mono fun b hb => ?_
    rw [hb, hv, hne _ rfl]
    rfl

theorem isAtDeclaration_declaration (d : Declaration τ) :
    Takes isAtDeclaration [] (d.terminals ++ us) (· = true) := by
  cases d with
  | var d | global x | nonlocal x => exact isAtDeclaration_takes.mono fun b hb => hb

theorem isAtDefinition_definition {d : Definition τ} (h : d.Derives (Expr.Written false 0) ts) :
    Takes isAtDefinition [] (ts ++ us) (· = true) := by
  cases d with
  | var d =>
    obtain rfl : ts = _ := h
    exact isAtDefinition_takes.mono fun b hb => hb
  | func f =>
    obtain ⟨-, vs, -, rfl⟩ := h
    exact isAtDefinition_takes.mono fun b hb => hb

theorem bodyStmt_takes (h : s.Derives (Expr.Written false 0) ts) (hu : EndsIf us) :
    Takes bodyStmt ts us (·.bare = s.bare) := by
  refine .look (looks_at_stmt h).1 fun _ hb => ?_
  rw [hb]
  exact stmt_takes h (fun _ => rfl) hu

theorem topStmt_takes (h : s.Derives (Expr.Written false 0) ts) (hr : s.hasReturn = false) (hu : EndsIf us) :
    Takes topStmt ts us (·.bare = s.bare) := by
  refine .look (looks_at_stmt h).2 fun _ hb => ?_
  rw [hb]
  exact stmt_takes h (fun h => absurd h (by simp [hr])) hu

theorem returnType_takes (t : Option TypeExpr) : Takes returnType (returnTerminals t) (.kind .colon :: us)
    (·.map TypeExpr.bare = t.map TypeExpr.bare) := by
  cases t with
  | none =>
    refine .look (.take_ne rfl (by simp)) fun _ hb => ?_
    rw [hb]
    exact .pure rfl
  | some t =>
    refine .next (.take rfl (by decide)) fun _ hb => ?_
    rw [hb]
    exact .last (type_takes t (List.cons_ne_nil _ _)) fun t' ht => .pure (congrArg some ht)

theorem params_takes {params : List TypedVar} {span : Span} :
    Takes (commaList span .rparen typedVar) (commas (params.map TypedVar.terminals)) (.kind .rparen :: us)
      (·.map TypedVar.bare = params.map TypedVar.bare) := by
  have hparams : Takes (commaList span .rparen typedVar) (commas (params.map TypedVar.terminals))
      (.kind .rparen :: us) (List.Forall₂ (fun v v' => v'.bare = v.bare) params) :=
    .commaList rfl (by decide) (fun v _ => ⟨_, _, rfl, by simp⟩)
      fun v _ k vs _ => typedVar_takes v (List.cons_ne_nil _ _)
  exact hparams.mono fun vs hvs => map_eq_of_forall₂ hvs fun _ _ h => h

theorem declarations_takes {ds : List (Declaration τ)} {n : Nat}
    (hend : Takes isAtDeclaration [] us (· = false)) (hn : (ds.flatMap Declaration.terminals).length ≤ n) :
    Takes (repeatWhile isAtDeclaration declaration n) (ds.flatMap Declaration.terminals) us
      (·.map Declaration.bare = ds.map Declaration.bare) := by
  refine repeatItems (fun _ => True) hend trivial hn fun d _ => ⟨?_, fun vs _ => ?_⟩
  · cases d <;> exact List.cons_ne_nil _ _
  · exact ⟨trivial, isAtDeclaration_declaration d, declaration_takes d⟩

theorem funcDef_takes {f : FuncDef τ} (h : f.Derives (Expr.Written false 0) ts) :
    Takes funcDef ts us (·.bare = f.bare) := by
  obtain ⟨hne, bs, ⟨items, hf, rfl, hitems⟩, rfl⟩ := h
  have hterminals : f.headTerminals ++
      inBlock (f.declarations.flatMap Declaration.terminals ++ items.flatMap Prod.snd) =
      .kind .kwDef :: .name f.name.name :: .kind .lparen :: (commas (f.params.map TypedVar.terminals) ++
        .kind .rparen :: (returnTerminals f.returnType ++ .kind .colon :: .kind .newline :: .kind .indent ::
          (f.declarations.flatMap Declaration.terminals ++ (items.flatMap Prod.snd ++ [.kind .dedent])))) := by
    simp [FuncDef.headTerminals, inBlock]
  have hend : Takes isAtDeclaration [] (items.flatMap Prod.snd ++ [.kind .dedent] ++ us) (· = false) := by
    cases items with
    | nil => exact absurd hf hne
    | cons i items =>
      rw [List.flatMap_cons, List.append_assoc, List.append_assoc]
      exact (looks_at_stmt (hitems i (List.mem_cons_self ..))).1
  rw [hterminals]
  refine .next (.expect rfl (by decide)) fun _ _ => .next .ident fun name hname => ?_
  refine .next (.expect rfl (by decide)) fun paren _ => .bind params_takes fun params hparams => ?_
  refine .next (.expect rfl (by decide)) fun _ _ => .bind (returnType_takes _) fun ret hret => ?_
  refine .next (.expect rfl (by decide)) fun _ _ => .next (.expect rfl (by decide)) fun _ _ => ?_
  refine .next indent_takes fun _ _ => .look .remaining fun n hn => ?_
  simp only [List.length_append, List.length_singleton] at hn
  refine .bind (declarations_takes hend (by omega)) fun ds hds => .look .remaining fun m hm => ?_
  simp only [List.length_append, List.length_singleton] at hm
  have hstmt := fun i hi us (hus : EndsIf us) => bodyStmt_takes (hitems i hi) hus
  refine .bind (body_takes hitems hstmt (by omega)) fun body hbody => ?_
  rw [← hf] at hbody
  refine .look (lastSpan_takes (ne_nil_of_allBare hbody hne)) fun last _ => ?_
  refine .next (.expect rfl (by decide)) fun _ _ => .pure ?_
  simp only [FuncDef.bare, Ident.bare_eq hname, hparams, hret, hds, hbody]

theorem definition_takes {d : Definition τ} (h : d.Derives (Expr.Written false 0) ts) :
    Takes definition ts us (·.bare = d.bare) := by
  cases d with
  | var d =>
    obtain rfl : ts = _ := h
    refine .look .isAtVarDef fun b hb => ?_
    rw [hb]
    exact .last (varDef_takes d) fun d' hd => .pure (congrArg Definition.var hd)
  | func f =>
    have hv : startsVarDef (ts ++ us) = false := by
      obtain ⟨-, _, -, rfl⟩ := h
      rfl
    refine .look .isAtVarDef fun b hb => ?_
    rw [hb, hv]
    exact .last (funcDef_takes h) fun f' hf => .pure (congrArg Definition.func hf)

theorem beforeEnd_takes {t : Terminal} : Takes beforeEnd [] (t :: us) (· = !decide (t = .kind .eof)) :=
  .look (.isAt rfl) fun _ hb => .pure (congrArg not hb)

theorem definitions_takes {ds : List (Definition τ × List Terminal)} {n : Nat}
    (hd : ∀ d ∈ ds, d.1.Derives (Expr.Written false 0) d.2) (hend : Takes isAtDefinition [] us (· = false))
    (hn : (ds.flatMap Prod.snd).length ≤ n) :
    Takes (repeatWhile isAtDefinition definition n) (ds.flatMap Prod.snd) us
      (·.map Definition.bare = (ds.map Prod.fst).map Definition.bare) := by
  rw [List.map_map]
  refine repeatItems (fun _ => True) hend trivial hn fun d h => ⟨Definition.Derives.ne_nil (hd d h), fun vs _ => ?_⟩
  exact ⟨trivial, isAtDefinition_definition (hd d h), definition_takes (hd d h)⟩

theorem statements_takes {ss : List (Stmt τ × List Terminal)} {n : Nat}
    (hs : ∀ s ∈ ss, s.1.Derives (Expr.Written false 0) s.2) (hr : Stmt.anyReturn (ss.map Prod.fst) = false)
    (hn : (ss.flatMap Prod.snd).length ≤ n) :
    Takes (repeatWhile beforeEnd topStmt n) (ss.flatMap Prod.snd) [.kind .eof]
      (Stmt.allBare · = Stmt.allBare (ss.map Prod.fst)) := by
  have hok : EndsIf [.kind .eof] := ⟨_, [], rfl, by simp, by simp⟩
  simp only [Stmt.allBare_eq_map, List.map_map]
  refine repeatItems EndsIf beforeEnd_takes hok hn fun s h => ⟨(hs s h).ne_nil, fun vs hvs => ?_⟩
  refine ⟨(hs s h).endsIf, ?_, topStmt_takes (hs s h) ?_ hvs⟩
  · obtain ⟨t, ts, hts, ht⟩ := (hs s h).exists_cons
    have hne : t ≠ .kind .eof := by
      rintro rfl
      cases ht
    rw [hts]
    refine beforeEnd_takes.mono fun b hb => ?_
    rw [hb, decide_eq_false hne]
    rfl
  · by_contra hreturn
    rw [Bool.not_eq_false] at hreturn
    rw [Stmt.anyReturn_iff.2 ⟨s.1, List.mem_map_of_mem h, hreturn⟩] at hr
    cases hr

/-- A program is parsed from its terminals, if it returns from functions only. -/
theorem program_takes {p : Program τ} (h : p.Derives (Expr.Written false 0) (ts ++ [.kind .eof]))
    (hr : Stmt.anyReturn p.statements = false) : Takes program ts [.kind .eof] (·.bare = p.bare) := by
  obtain ⟨us, vs, ⟨ds, hds, rfl, hd⟩, ⟨ss, hss, rfl, hs⟩, hts⟩ := h
  obtain rfl := List.append_inj_left' hts rfl
  have hend : Takes isAtDefinition [] (ss.flatMap Prod.snd ++ [.kind .eof]) (· = false) := by
    cases ss with
    | nil => exact isAtDefinition_takes
    | cons s ss =>
      rw [List.flatMap_cons, List.append_assoc]
      exact (looks_at_stmt (hs s (List.mem_cons_self ..))).2
  refine .look .remaining fun n hn => ?_
  simp only [List.length_append, List.length_singleton] at hn
  refine .bind (definitions_takes hd hend (by omega)) fun ds' hds' => .look .remaining fun m hm => ?_
  simp only [List.length_append, List.length_singleton] at hm
  rw [hss] at hr
  refine .last (statements_takes hs hr (by omega)) fun ss' hss' => .look .exprCount fun _ _ => .pure ?_
  rw [Program.bare, Program.bare, hds', hss', hds, hss]

end Definitions

end Parse

end ChocoCompiler
