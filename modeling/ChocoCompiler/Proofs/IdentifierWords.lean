import ChocoCompiler.Proofs.Lines
import Mathlib.Data.List.TakeWhile

/-!
# Identifiers are words

The lexer makes identifiers of words only, made of letters, digits and underscores (`lexFrom_spelled`), and checking
changes no name (`checkProgram_names`). A `return` stands in functions only (`parseProgram_returns`).
-/

namespace ChocoCompiler

/-- A name of letters, digits and underscores. -/
def IsWord (x : String) : Prop := ∀ c ∈ x.toList, Lexeme.isWordPart c = true

theorem IsWord.not_mem_dot {x : String} (h : IsWord x) : '.' ∉ x.toList :=
  fun hd => absurd (h '.' hd) (by decide)

/-- A token that is no identifier, or one that is a word. -/
def Token.Spelled (t : Token) : Prop := t.kind = .identifier → IsWord t.name

/-! ## Tokens -/

theorem Lexeme.scan_identifier {c : Char} {cs : List Char} {l : Lexeme} (h : scan c cs = .ok l)
    (hk : l.kind = .identifier) : ∀ x ∈ c :: cs.take l.more, isWordPart x = true := by
  have hpair : ∀ {first next kind}, pair first next kind cs = .ok l → kind = .identifier := by
    intro first next kind h
    unfold pair at h
    split_ifs at h
    cases h
    exact hk
  unfold scan at h
  split at h
  case h_4 => cases hpair h
  case h_7 => cases hpair h
  case h_16 => rcases string_kind h with h | h <;> cases hk.symm.trans h
  case h_17 =>
    split_ifs at h with hstart hdigit
    · cases h
      intro x hx
      rcases List.mem_cons.1 hx with rfl | hx
      · simp only [isWordStart, isWordPart, Char.isAlphanum, Bool.or_eq_true] at hstart ⊢
        tauto
      · rw [← List.prefix_iff_eq_take.1 (List.takeWhile_prefix _)] at hx
        exact List.mem_takeWhile_imp hx
    · cases h
      cases hk
  all_goals
    cases h
    first
    | cases hk
    | (unfold sign at hk; split_ifs at hk)

theorem layoutTokens_spelled {pos : Nat} {kinds : List TokenKind} (h : .identifier ∉ kinds) :
    ∀ t ∈ layoutTokens pos kinds, t.Spelled := by
  intro t ht hk
  obtain ⟨k, hmem, rfl⟩ := List.mem_map.1 ht
  exact absurd (hk ▸ hmem) h

theorem Layout.enter_kinds {l inner : Layout} {kinds : List TokenKind}
    (h : l.enter = some (kinds, inner)) : .identifier ∉ kinds := by
  unfold Layout.enter at h
  split_ifs at h <;> cases h
  · nofun
  · simp
  · exact fun hm => absurd (List.eq_of_mem_replicate hm) (by decide)

theorem Layout.close_kinds (l : Layout) : .identifier ∉ l.close := by
  unfold Layout.close
  simp only [List.mem_append, List.mem_replicate, List.mem_singleton]
  split_ifs <;> simp

theorem lexFrom_spelled {pos : Nat} {l : Layout} {cs : List Char} :
    ∀ t ∈ (lexFrom pos l cs).tokens, t.Spelled := by
  fun_induction lexFrom pos l cs with
  | case1 pos l => exact layoutTokens_spelled l.close_kinds
  | case2 _ _ _ ih => exact ih
  | case3 _ _ _ _ ih => exact ih
  | case4 _ _ _ _ _ _ _ ends ih =>
    intro t ht
    rcases List.mem_append.1 ht with ht | ht
    · simp only [ends] at ht
      split_ifs at ht
      · cases ht
      · rw [List.mem_singleton.1 ht]
        intro hk
        cases hk
    · exact ih t ht
  | case5 _ _ _ _ _ _ _ ih => exact ih
  | case6 => exact fun _ ht => absurd ht List.not_mem_nil
  | case7 _ _ _ _ _ _ _ _ _ _ henter => exact layoutTokens_spelled (Layout.enter_kinds henter)
  | case8 _ _ c cs _ _ _ _ _ _ henter _ kind more hscan text token ih =>
    intro t ht
    rcases List.mem_append.1 ht with ht | ht
    · rcases List.mem_append.1 ht with ht | ht
      · exact layoutTokens_spelled (Layout.enter_kinds henter) t ht
      · rw [List.mem_singleton.1 ht]
        intro hk x hx
        rw [Token.name, String.toList_ofList] at hx
        exact Lexeme.scan_identifier hscan hk x hx
    · exact ih t ht

theorem readTokens_spelled {source : String} {tokens : List Token}
    (h : readTokens source = .ok tokens) : ∀ t ∈ tokens, t.Spelled := by
  have h := phase_eq_ok.1 h
  unfold Lexed.toExcept at h
  split at h <;> cases h
  exact lexFrom_spelled

/-! ## The names of a program -/

/-- The names that a definition makes: its own, and those of parameters and variables. -/
def Definition.names {τ : Type} : Definition τ → List String
  | .var d => [d.var.name.name]
  | .func f => f.name.name :: (f.paramNames ++ f.varNames)

theorem Definition.ident_mem_names {τ : Type} (d : Definition τ) : d.ident.name ∈ d.names := by
  cases d <;> exact List.mem_cons_self ..

def Program.names {τ : Type} (p : Program τ) : List String := p.definitions.flatMap Definition.names

theorem Definition.ChecksAs.names {env : TypeEnv} {d : Definition Tag} {d' : Definition TypedTag}
    (h : d.ChecksAs env d') : d'.names = d.names := by
  cases h with
  | var hd =>
    obtain ⟨-, rfl⟩ := VarDef.check_eq_ok.1 hd
    rfl
  | func hf =>
    obtain ⟨_, _, _, -, hds, -, rfl⟩ := FuncDef.check_eq_ok.1 hf
    simp only [Definition.names, FuncDef.paramNames, FuncDef.varNames, checkDeclarations_varNames hds]

theorem checkProgram_names {p : Program Tag} {typed : Program TypedTag}
    (h : checkProgram p = .ok typed) : typed.names = p.names := by
  obtain ⟨-, hds, -⟩ := checkProgram_eq_ok.1 h
  unfold Program.names
  rw [List.flatMap_def, List.flatMap_def, map_eq_of_forall₂ hds fun _ _ => Definition.ChecksAs.names]

/-! ## Where statements return -/

namespace Parse

variable {α β : Type} {Q R : α → Prop}

/-- The parser returns what it should, if it succeeds. -/
def Gives (x : Parse α) (Q : α → Prop) : Prop := ∀ c a c', x c = .ok a c' → Q a

namespace Gives

theorem pure {a : α} (h : Q a) : Gives (Pure.pure a) Q := by
  intro c a c' hx
  cases hx
  exact h

theorem bind {x : Parse α} {f : α → Parse β} {Q : β → Prop} (hx : Gives x R) (hf : ∀ a, R a → Gives (f a) Q) :
    Gives (x >>= f) Q := by
  intro c b c' h
  obtain ⟨a, c₁, ha, h⟩ := run_bind_eq_ok.1 h
  exact hf a (hx c a c₁ ha) c₁ b c' h

/-- What the first parser returns does not matter. -/
theorem skip {x : Parse α} {f : α → Parse β} {Q : β → Prop} (hf : ∀ a, Gives (f a) Q) : Gives (x >>= f) Q :=
  bind (R := fun _ => True) (fun _ _ _ _ => trivial) fun a _ => hf a

theorem fail {e : SyntaxError} : Gives (fail e) Q := by
  intro c a c' h
  cases h

theorem ite {p : Prop} [Decidable p] {x y : Parse α} (hx : Gives x Q) (hy : Gives y Q) :
    Gives (if p then x else y) Q := by
  split_ifs
  · exact hx
  · exact hy

theorem repeatWhile {more : Parse Bool} {item : Parse α} (hi : Gives item Q) :
    ∀ n, Gives (repeatWhile more item n) fun as => ∀ a ∈ as, Q a
  | 0 => .pure nofun
  | n + 1 => .skip fun _ => .ite
      (.bind hi fun _ ha => .bind (repeatWhile hi n) fun _ has => .pure (List.forall_mem_cons.2 ⟨ha, has⟩))
      (.pure nofun)

end Gives

/-- Whether a `return` may stand in a statement of a function, or of none. -/
abbrev MayReturn (inFunction : Bool) (s : Stmt Tag) : Prop := s.hasReturn = true → inFunction = true

section Statements

variable {inFunction : Bool} {stmt : Parse (Stmt Tag)} (hs : Gives stmt (MayReturn inFunction))
include hs

theorem block_gives : Gives (block stmt) fun b => Stmt.anyReturn b.1 = true → inFunction = true :=
  .skip fun _ => .skip fun _ => .skip fun _ => .skip fun n => .bind (.repeatWhile hs n) fun _ hb =>
  .skip fun _ => .skip fun _ => .pure fun h => by
    obtain ⟨s, hm, hr⟩ := Stmt.anyReturn_iff.1 h
    exact hb s hm hr

theorem ifRest_gives : ∀ n t, Gives (ifRest stmt n t) (MayReturn inFunction)
  | 0, _ => .fail
  | n + 1, _ => .skip fun _ => .bind (block_gives hs) fun _ hb => .skip fun _ => .ite
      (.skip fun t => .bind (ifRest_gives n t) fun _ hi => .pure fun h => by
        simp only [Stmt.hasReturn, Stmt.anyReturn, Bool.or_eq_true, Bool.or_false] at h
        exact h.elim hb hi)
      (.skip fun _ => .ite
        (.bind (block_gives hs) fun _ he => .pure fun h => (Bool.or_eq_true_iff.1 h).elim hb he)
        (.pure fun h => (Bool.or_eq_true_iff.1 h).elim hb nofun))

end Statements

theorem exprStmt_gives {inFunction : Bool} : Gives exprStmt (MayReturn inFunction) := by
  refine .skip fun _ => .ite .fail <| .skip fun _ => .skip fun _ => .skip fun _ => .skip fun _ => ?_
  split
  · exact .pure nofun
  · exact .pure nofun

theorem stmtAt_gives {inFunction : Bool} : ∀ depth, Gives (stmtAt inFunction depth) (MayReturn inFunction)
  | 0 => .fail
  | depth + 1 => by
    have hstmt : Gives (stmtAt inFunction depth) (MayReturn inFunction) := stmtAt_gives depth
    have hblock := block_gives hstmt
    refine .skip fun t => ?_
    split
    · exact .skip fun _ => .skip fun _ => .pure nofun
    · split_ifs with hin
      · exact .skip fun _ => .skip fun _ => .skip fun _ => .pure fun _ => hin
      · exact .fail
    · exact .skip fun t => .skip fun n => ifRest_gives hstmt n t
    · exact .skip fun _ => .skip fun _ => .bind hblock fun _ hb => .pure hb
    · exact .skip fun _ => .skip fun _ => .skip fun _ => .skip fun _ => .bind hblock fun _ hb => .pure hb
    · exact .fail
    · exact exprStmt_gives

theorem topStmt_gives : Gives topStmt (MayReturn false) :=
  .skip fun _ => .ite .fail (.skip fun n => stmtAt_gives n)

theorem program_gives : Gives program fun p => Stmt.anyReturn p.statements = false :=
  .skip fun _ => .skip fun _ => .skip fun n => .bind (.repeatWhile topStmt_gives n) fun _ hss =>
    .skip fun _ => .pure <| by
      by_contra h
      obtain ⟨s, hm, hr⟩ := Stmt.anyReturn_iff.1 (Bool.not_eq_false _ ▸ h)
      exact absurd (hss s hm hr) Bool.false_ne_true

end Parse

theorem parseProgram_gives {names : NameTable} {source : String} {p : Program Tag}
    (h : (parseProgram names source).1 = .ok p) : Stmt.anyReturn p.statements = false := by
  unfold parseProgram parseWith at h
  split at h
  · cases h
  · have h := phase_eq_ok.1 h
    unfold Parse.run at h
    split at h <;> cases h
    rename_i hrun
    exact Parse.program_gives _ _ _ hrun

theorem parseProgram_returns {names : NameTable} {source : String} {p : Program Tag}
    {typed : Program TypedTag} (h : (parseProgram names source).1 = .ok p)
    (hc : checkProgram p = .ok typed) : Stmt.anyReturn typed.statements = false := by
  obtain ⟨-, -, hss, -⟩ := checkProgram_eq_ok.1 hc
  exact (Stmt.anyReturn_of_forall₂ Stmt.check_hasReturn hss).trans (parseProgram_gives h)

end ChocoCompiler
