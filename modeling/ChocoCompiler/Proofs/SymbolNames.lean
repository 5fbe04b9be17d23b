import ChocoCompiler.Proofs.LoweringGrowth
import ChocoCompiler.Proofs.StoredNames

/-!
# The names of globals and functions

There are five kinds of names in a module: of texts, of lists that were never made, of what the program
defines, of the functions for list shapes, and fixed ones. The spelling of a name tells its kind
(`Symbol.kindOf_spelling`), so two symbols are never spelled alike (`Symbol.spelling_inj`).
-/

namespace ChocoCompiler

open Ir

inductive Symbol where
  | text (n : Nat)
  | noneList (n : Nat)
  | user (x : String)
  | helper (n : Nat) (what : String)
  | fixed (x : String)
  deriving DecidableEq

def fixedNames : List String := (Extern.all ++ Library.all).map Callee.name ++ ["main"]

namespace Symbol

def spelling : Symbol → String
  | text n => textName n
  | noneList n => ".none." ++ ("list" ++ toString n)
  | user x => storedName x
  | helper n what => "list" ++ toString n ++ "_" ++ what
  | fixed x => x

/-- The symbols that are in use. -/
def IsValid : Symbol → Prop
  | text _ | noneList _ => True
  | user x => IsWord x
  | helper _ what => what ∈ ["len", "elemptr", "concat"]
  | fixed x => x ∈ fixedNames

inductive Kind where
  | text | noneList | user | helper | fixed
  deriving DecidableEq

def kind : Symbol → Kind
  | text _ => .text
  | noneList _ => .noneList
  | user _ => .user
  | helper .. => .helper
  | fixed _ => .fixed

/-- What kind of symbol a name is the spelling of. -/
def kindOf (s : String) : Kind :=
  if '.' ∈ s.toList then
    if endsInDigit s then if s.toList[1]? = some 's' then .text else .noneList else .user
  else if Library.isListWord s.toList then .helper
  else if Library.isReserved s then .fixed
  else .user

theorem isListWord_helper (n : Nat) (r : List Char) :
    Library.isListWord ("list".toList ++ (toString n).toList ++ r) = true := by
  rw [toList_toString_nat]
  cases hd : Nat.toDigits 10 n with
  | nil => exact absurd hd Nat.toDigits_ne_nil
  | cons c cs =>
    have hc : c ∈ Nat.toDigits 10 n := by simp [hd]
    simpa [Library.isListWord] using Nat.isDigit_of_mem_toDigits (by decide) (by decide) hc

theorem kindOf_spelling {a : Symbol} (ha : a.IsValid) : kindOf a.spelling = a.kind := by
  cases a with
  | text n =>
    have hdigit : endsInDigit (textName n) = true := endsInDigit_numbered _ n
    rw [spelling, kindOf, if_pos (by simp [textName]), if_pos hdigit, if_pos (by simp [textName])]
    rfl
  | noneList n =>
    have hdigit : endsInDigit (".none." ++ ("list" ++ toString n)) = true := by
      rw [← String.append_assoc]
      exact endsInDigit_numbered _ n
    rw [spelling, kindOf, if_pos (by simp), if_pos hdigit, if_neg (by simp)]
    rfl
  | user x =>
    rcases storedName_eq x with ⟨-, hx⟩ | ⟨hr, hx⟩
    · have hdigit : endsInDigit (x ++ ".user") = false := by simp [endsInDigit]
      simp [spelling, kindOf, hx, hdigit, kind]
    · have hdot : '.' ∉ x.toList := ha.not_mem_dot
      have hlist : Library.isListWord x.toList = false := by
        simp only [Library.isReserved, Bool.or_eq_false_iff] at hr
        exact hr.1.1
      simp [spelling, kindOf, hx, hdot, hlist, hr, kind]
  | helper n what =>
    have hwhat : ∀ w ∈ ["len", "elemptr", "concat"], '.' ∉ w.toList := by decide
    have hdot : '.' ∉ ("list" ++ toString n ++ "_" ++ what).toList := by
      have hn := not_mem_dot_digits n
      rw [toList_toString_nat] at hn
      simp [hn, hwhat what ha]
    have hlist := isListWord_helper n ("_" ++ what).toList
    rw [spelling, kindOf, if_neg hdot, if_pos (by simpa using hlist)]
    rfl
  | fixed x =>
    have hall : ∀ x ∈ fixedNames, kindOf x = .fixed := by decide
    exact hall x ha

/-- No two symbols are spelled alike. -/
theorem spelling_inj {a b : Symbol} (ha : a.IsValid) (hb : b.IsValid)
    (h : a.spelling = b.spelling) : a = b := by
  have hkind : a.kind = b.kind := by rw [← kindOf_spelling ha, ← kindOf_spelling hb, h]
  cases a with
  | text n =>
    cases b with
    | text k => rw [(numbered_inj (by decide) (by decide) h).2]
    | _ => cases hkind
  | noneList n =>
    cases b with
    | noneList k => rw [toString_nat_inj (m := n) (n := k) (by simpa [spelling] using h)]
    | _ => cases hkind
  | user x =>
    cases b with
    | user y => rw [storedName_inj ha hb h]
    | _ => cases hkind
  | helper n what =>
    cases b with
    | helper k what' =>
      have hdigits : '_' ∉ (toString n).toList := by
        intro hm
        rw [toList_toString_nat] at hm
        exact absurd (Nat.isDigit_of_mem_toDigits (by decide) (by decide) hm) (by decide)
      have hwhat : ∀ w ∈ ["len", "elemptr", "concat"], '_' ∉ w.toList := by decide
      have hlist : (toString n).toList ++ '_' :: what.toList =
          (toString k).toList ++ '_' :: what'.toList := by
        simpa [spelling, String.append_assoc] using congrArg String.toList h
      obtain ⟨hn, -, hw⟩ := (List.append_cons_inj_of_notMem hdigits (hwhat what ha)).1 hlist
      rw [toString_nat_inj (String.toList_inj.1 hn), String.toList_inj.1 hw]
    | _ => cases hkind
  | fixed x =>
    cases b with
    | fixed y => rw [show x = y from h]
    | _ => cases hkind

/-- The symbols of what a module declares and defines, where the program has functions with the
given names and `n` list shapes. -/
def functions (names : List String) (n : Nat) : List Symbol :=
  (Extern.all ++ Library.all).map (fixed ·.name) ++ names.map user ++ [fixed "main"] ++
    (List.range n).flatMap fun k => ["len", "elemptr", "concat"].map (helper k)

section Functions

variable {names : List String} {n : Nat}

theorem mem_functions {a : Symbol} (h : a ∈ functions names n) :
    (∃ x ∈ fixedNames, a = fixed x) ∨ (∃ x ∈ names, a = user x) ∨
      ∃ k, ∃ what ∈ ["len", "elemptr", "concat"], a = helper k what := by
  simp only [functions, List.mem_append, List.mem_flatMap] at h
  rcases h with ((h | h) | h) | ⟨k, -, h⟩
  · obtain ⟨c, hc, rfl⟩ := List.mem_map.1 h
    exact .inl ⟨c.name, List.mem_append_left _ (List.mem_map_of_mem hc), rfl⟩
  · obtain ⟨x, hx, rfl⟩ := List.mem_map.1 h
    exact .inr (.inl ⟨x, hx, rfl⟩)
  · rw [List.mem_singleton.1 h]
    exact .inl ⟨"main", by decide, rfl⟩
  · obtain ⟨what, hwhat, rfl⟩ := List.mem_map.1 h
    exact .inr (.inr ⟨k, what, hwhat, rfl⟩)

theorem isValid_of_mem_functions (hnames : ∀ x ∈ names, IsWord x) {a : Symbol}
    (h : a ∈ functions names n) : a.IsValid := by
  rcases mem_functions h with ⟨x, hx, rfl⟩ | ⟨x, hx, rfl⟩ | ⟨k, what, hwhat, rfl⟩
  · exact hx
  · exact hnames x hx
  · exact hwhat

theorem functions_nodup (hnames : names.Nodup) : (functions names n).Nodup := by
  have hhelpers : ((List.range n).flatMap fun k =>
      ["len", "elemptr", "concat"].map (helper k)).Nodup := by
    refine List.nodup_flatMap.2 ⟨fun k _ => by simp, List.nodup_range.imp fun {i j} hij => ?_⟩
    intro a ha hb
    obtain ⟨_, -, rfl⟩ := List.mem_map.1 ha
    obtain ⟨_, -, hb⟩ := List.mem_map.1 hb
    exact hij (helper.inj hb).1.symm
  have hfixed : ((Extern.all ++ Library.all).map (fixed ·.name)).Nodup := by decide
  have hmain : fixed "main" ∉ (Extern.all ++ Library.all).map (fixed ·.name) := by decide
  have husers : (names.map user).Nodup := hnames.map fun x y h => user.inj h
  refine List.nodup_append.2 ⟨List.nodup_append.2 ⟨List.nodup_append.2 ⟨hfixed, husers, ?_⟩,
    by simp, ?_⟩, hhelpers, ?_⟩
  · rintro a ha b hb rfl
    obtain ⟨c, -, rfl⟩ := List.mem_map.1 ha
    simp at hb
  · rintro a ha b hb rfl
    rw [List.mem_singleton.1 hb] at ha
    rcases List.mem_append.1 ha with ha | ha
    · exact hmain ha
    · simp at ha
  · rintro a ha b hb rfl
    obtain ⟨k, -, hb⟩ := List.mem_flatMap.1 hb
    obtain ⟨what, -, rfl⟩ := List.mem_map.1 hb
    simp at ha

theorem map_spelling_functions_nodup (hwords : ∀ x ∈ names, IsWord x) (hnames : names.Nodup) :
    ((functions names n).map spelling).Nodup :=
  (functions_nodup hnames).map_on fun _ ha _ hb h =>
    spelling_inj (isValid_of_mem_functions hwords ha) (isValid_of_mem_functions hwords hb) h

end Functions

/-- The symbols of globals, where variables have been stored for the names of `vs` and there are `n`
texts. -/
def IsGlobal (vs : List String) (n : Nat) : Symbol → Prop
  | text k => k < n
  | noneList _ => True
  | user x => x ∈ vs ∧ IsWord x
  | helper .. | fixed _ => False

theorem IsGlobal.isValid {vs : List String} {n : Nat} {a : Symbol} (h : a.IsGlobal vs n) :
    a.IsValid := by
  cases a with
  | text | noneList => trivial
  | user x => exact h.2
  | helper | fixed => exact h.elim

theorem IsGlobal.mono {vs ws : List String} {n k : Nat} {a : Symbol} (h : a.IsGlobal vs n)
    (hs : vs ⊆ ws) (hn : n ≤ k) : a.IsGlobal ws k := by
  cases a with
  | text i => exact lt_of_lt_of_le h hn
  | noneList => trivial
  | user x => exact ⟨hs h.1, h.2⟩
  | helper | fixed => exact h

end Symbol

/-- No two globals have one name, and the name of each is a symbol of theirs. -/
structure Ir.Module.Names (vs : List String) (m : Module) : Prop where
  nodup : m.globalNames.Nodup
  symbol : ∀ x ∈ m.globalNames, ∃ a : Symbol, a.IsGlobal vs m.texts.length ∧ x = a.spelling

namespace Ir.Module.Names

variable {vs : List String} {m m' : Module}

theorem of_globals (h : m.Names vs) (hm : m'.globals = m.globals) : m'.Names vs := by
  constructor
  · rw [globalNames, hm]
    exact h.nodup
  · rw [globalNames, texts, hm]
    exact h.symbol

theorem not_mem (h : m.Names vs) {a : Symbol} (ha : a.IsValid)
    (hn : ¬ a.IsGlobal vs m.texts.length) : a.spelling ∉ m.globalNames := by
  intro hmem
  obtain ⟨b, hb, he⟩ := h.symbol _ hmem
  exact hn (Symbol.spelling_inj ha hb.isValid he ▸ hb)

theorem snoc (h : m.Names vs) {ws : List String} {a : Symbol} {g : Global}
    (hm : m'.globals = m.globals ++ [g]) (hg : g.name = a.spelling)
    (hfresh : a.spelling ∉ m.globalNames) (hvs : vs ⊆ ws) (ha : a.IsGlobal ws m'.texts.length) :
    m'.Names ws := by
  have hnames : m'.globalNames = m.globalNames ++ [a.spelling] := by
    simp [globalNames, hm, hg]
  have htexts : m.texts.length ≤ m'.texts.length := by
    simp [texts, hm]
  constructor
  · rw [hnames, List.nodup_append]
    refine ⟨h.nodup, by simp, fun x hx y hy => ?_⟩
    rw [List.mem_singleton.1 hy]
    exact fun he => hfresh (he ▸ hx)
  · intro x hx
    rw [hnames] at hx
    rcases List.mem_append.1 hx with hx | hx
    · obtain ⟨b, hb, he⟩ := h.symbol x hx
      exact ⟨b, hb.mono hvs htexts, he⟩
    · exact ⟨a, ha, List.mem_singleton.1 hx⟩

theorem addsData (h : m.Names vs) (hstep : m.AddsData m') : m'.Names vs := by
  cases hstep with
  | text t =>
    rcases m.addText_cases t with ⟨g, -, -, he⟩ | ⟨-, he⟩ <;> rw [he]
    · exact h
    · refine h.snoc (a := .text m.texts.length) rfl rfl ?_ (List.Subset.refl _) ?_
      · exact h.not_mem trivial (lt_irrefl m.texts.length)
      · simp [Symbol.IsGlobal, texts]
  | noneList s hs =>
    exact h.snoc (a := .noneList s.number) rfl rfl hs (List.Subset.refl _) trivial

theorem of_run (h : m.Names vs) (hrun : Relation.ReflTransGen AddsData m m') : m'.Names vs := by
  induction hrun with
  | refl => exact h
  | tail _ hstep ih => exact ih.addsData hstep

theorem addVariable (h : m.Names vs) {x : String} (hx : IsWord x) (hn : x ∉ vs) (init : Init) :
    (m.addGlobal (storedName x) init).2.Names (vs ++ [x]) := by
  refine h.snoc (a := .user x) rfl rfl ?_ (List.subset_append_left ..) ⟨by simp, hx⟩
  exact h.not_mem hx fun hv => hn hv.1

end Ir.Module.Names

end ChocoCompiler
