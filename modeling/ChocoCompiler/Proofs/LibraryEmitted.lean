import ChocoCompiler.Lowering.Library
import ChocoCompiler.Proofs.BuildRules
import Mathlib.Data.List.Forall2
import Mathlib.Tactic.Order

/-!
# The library's functions come about by steps

Each function that a module brings along is built by the rules, whatever list shape or message it is
made for.
-/

namespace ChocoCompiler

open Ir

namespace Ir

/-- The function came about by steps, with arguments for these parameters and slots for these
variables. -/
structure Function.Emitted (f : Function) (params vars : List String) : Prop where
  steps : ∃ d, (Draft.start f.name f.ret f.params).Emits d ∧ d.vars = vars ∧ f = d.builder.finish
  params : f.params.map Prod.fst = params.map ("arg." ++ ·)

theorem finish_emitted {name : String} {ret : Ty} {params : List (String × Ty)} {d : Draft}
    {ps : List String} (he : (Draft.start name ret params).Emits d)
    (hps : params.map Prod.fst = ps.map ("arg." ++ ·)) : d.builder.finish.Emitted ps d.vars := by
  have hg := he.grows
  have hf : Draft.start d.builder.finish.name d.builder.finish.ret d.builder.finish.params =
      Draft.start name ret params := by
    simp only [Builder.finish, hg.name, hg.ret, hg.params]
    rfl
  exact ⟨⟨d, by rw [hf]; exact he, rfl, rfl⟩, by rw [← hps]; simp [Builder.finish, hg.params]; rfl⟩

theorem map_fst_zipWith_argument :
    ∀ (names : List String) (tys : List Ty), names.length = tys.length →
      (names.zipWith (fun x t => ("arg." ++ x, t)) tys).map Prod.fst = names.map ("arg." ++ ·)
  | [], [], _ => rfl
  | x :: xs, t :: ts, h => by simpa using map_fst_zipWith_argument xs ts (by simpa using h)

/-- A function is built by the rules from its arguments and the free labels. -/
theorem build_emitted {c : Callee} {names vs : List String} {body : Build Unit}
    (hlen : names.length = c.params.length)
    (hbody : ∀ C : Context, C.ret = c.ret → C.vars = [] → (∀ l ∈ libraryLabels, l ∈ C.fresh) →
      (∀ x ∈ names, ∀ ty, C.Knows (argument x ty)) → Build.Safe C body fun _ C' => C'.vars = vs) :
    (Function.build c names body).Emitted names vs := by
  have hparams := map_fst_zipWith_argument names c.params hlen
  obtain ⟨d, C', hb, he, hC', hvs⟩ := hbody (.start c.ret _) rfl rfl (fun _ hl => hl)
    (by
      intro x hx ty y hy
      cases hy
      show _ ∈ List.map _ _
      rw [hparams]
      exact List.mem_map_of_mem hx)
    (.start c.name c.ret _) (Draft.start_valid ..) (Context.start_holds ..)
  have hf := finish_emitted he hparams
  rw [hC'.vars, hvs, hb] at hf
  exact hf

end Ir

namespace Library

/-- A value that stands for a text. -/
structure IsText (v : Value) : Prop where
  ty : v.ty = stringTy
  knows : ∀ C : Context, C.Knows v

variable {C : Context}

theorem abort_safe {message : Value} (hm : IsText message) :
    Build.Safe C (abort message) fun _ C' => C ≤ C' := by
  refine .bind (.callValue (by simp [hm.knows]) (by simp [Callee.accepts, Extern.printf, hm.ty])
    (by decide)) ?_
  rintro _ C₁ ⟨h₁, _⟩
  refine .bind (.callVoid (by simp [Value.i32, Context.knows_int]) (by decide) rfl)
    fun _ C₂ h₂ => ?_
  exact .mono .unreachable fun _ C₃ h₃ => h₁.trans (h₂.trans h₃)

theorem ret_safe {C₀ : Context} {v : Value} {t : Ty} (hC : C₀ ≤ C) (hret : C₀.ret = t)
    (ht : t ≠ .void) (hv : C.Knows v) (hvt : v.ty.sameRepr t = true) :
    Build.Safe C (Build.ret (some v)) fun _ C' => C'.vars = C₀.vars := by
  subst hret
  rw [hC.2.2.2] at ht hvt
  exact .mono (.ret hv ht hvt) fun _ C' hC' => (hC.trans hC').2.2.1.symm

theorem printBody_emitted {c : Callee} {format : Value} {ty : Ty} (hc : c.params = [ty])
    (hret : c.ret = .i32) (hf : IsText format) : (printBody c format ty).Emitted ["x"] [] := by
  refine build_emitted (by simp [hc]) fun C hr hvs _ harg => ?_
  refine .bind (.callValue (by simp [hf.knows, harg]) (by simp [Callee.accepts, Extern.printf, hf.ty])
    (by decide)) ?_
  rintro v C₁ ⟨h₁, hv, ht⟩
  rw [← hvs]
  exact ret_safe h₁ (hr.trans hret) (by decide) hv (by rw [ht]; rfl)

theorem printboolBody_emitted {format yes no : Value} (hf : IsText format) (hy : IsText yes)
    (hn : IsText no) : (printboolBody format yes no).Emitted ["x"] [] := by
  refine build_emitted rfl fun C hr hvs _ harg => ?_
  refine .bind (.select (harg "x" (by simp) _) (hy.knows C) (hn.knows C) rfl (by rw [hy.ty, hn.ty]; rfl)) ?_
  rintro w C₁ ⟨h₁, hw, htw⟩
  refine .bind (.callValue (by simp [hf.knows, hw])
    (by simp [Callee.accepts, Extern.printf, hf.ty]) (by decide)) ?_
  rintro v C₂ ⟨h₂, hv, ht⟩
  rw [← hvs]
  exact ret_safe (h₁.trans h₂) hr (by decide) hv (by rw [ht]; rfl)

theorem floordivBody_emitted {message : Value} (hm : IsText message) :
    (floordivBody message).Emitted ["a", "b"] [] := by
  refine build_emitted rfl fun C hr hvs hfresh harg => ?_
  have ha := harg "a" (by simp) .i32
  have hd := harg "b" (by simp) .i32
  refine .bind (.appendBlock (hfresh _ (by decide))) ?_
  rintro error C₁ ⟨h₁, hn₁, hte, hf₁⟩
  refine .bind (.appendBlock (by rw [hf₁]; exact ⟨hfresh _ (by decide), by decide⟩)) ?_
  rintro ok C₂ ⟨h₂, hn₂, hto, _⟩
  rw [hn₁] at hn₂ hto
  refine .bind (.icmp (hd.mono (h₁.trans h₂)) (C₂.knows_int _ _) rfl) ?_
  rintro z C₃ ⟨h₃, hz, htz⟩
  have hsub : C.names ⊆ C₃.names := (h₁.trans (h₂.trans h₃)).1
  refine .bind (.condBr hz htz (hte.mono (by order)) (hto.mono h₃) hsub hsub) fun _ C₄ h₄ => ?_
  refine .bind (.moveTo (hte.mono (by order)) (by order : C ≤ C₄) subset_rfl) ?_
  rintro _ C₅ ⟨h₅, ht₅⟩
  refine .bind (abort_safe hm) fun _ C₆ h₆ => ?_
  refine .bind (.moveTo ((ht₅ (hto.mono (by order))).mono h₆) (by order : C ≤ C₆) subset_rfl) ?_
  rintro _ C₇ ⟨hC₇, _⟩
  refine .bind (.binary (ha.mono hC₇) (hd.mono hC₇) rfl rfl rfl) ?_
  rintro q C₈ ⟨h₈, hq, htq⟩
  refine .bind (.binary (ha.mono (by order)) (hd.mono (by order)) rfl rfl rfl) ?_
  rintro r C₉ ⟨h₉, hr', htr⟩
  refine .bind (.icmp hr' (C₉.knows_int _ _) (by rw [htr]; rfl)) ?_
  rintro ne C₁₀ ⟨h₁₀, hne, htne⟩
  refine .bind (.icmp (hr'.mono h₁₀) (C₁₀.knows_int _ _) (by rw [htr]; rfl)) ?_
  rintro rneg C₁₁ ⟨h₁₁, hrneg, htrneg⟩
  refine .bind (.icmp (hd.mono (by order)) (C₁₁.knows_int _ _) rfl) ?_
  rintro dneg C₁₂ ⟨h₁₂, hdneg, htdneg⟩
  refine .bind (.binary (hrneg.mono h₁₂) hdneg htrneg htdneg rfl) ?_
  rintro x C₁₃ ⟨h₁₃, hx, htx⟩
  refine .bind (.binary (hne.mono (by order)) hx htne htx rfl) ?_
  rintro y C₁₄ ⟨h₁₄, hy, hty⟩
  refine .bind (.cast hy (by rw [hty]; rfl)) ?_
  rintro w C₁₅ ⟨h₁₅, hw, htw⟩
  refine .bind (.binary (hq.mono (by order)) hw htq htw rfl) ?_
  rintro v C₁₆ ⟨h₁₆, hv, htv⟩
  rw [← hvs]
  exact ret_safe (by order) hr (by decide) hv (by rw [htv]; rfl)

theorem identityBody_emitted {c : Callee} {ty : Ty} (hc : c.params = [ty]) (hret : c.ret = ty)
    (hty : ty ≠ .void) : (identityBody c).Emitted ["x"] ["x"] := by
  refine build_emitted (by simp [hc]) fun C hr hvs _ harg => ?_
  refine .bind (.allocaVar "x" c.ret) ?_
  rintro slot C₁ ⟨h₁, hslot, hts⟩
  have hx : C₁.Knows (argument "x" c.ret) := fun y hy => h₁.1 (harg "x" (by simp) c.ret y hy)
  refine .bind (.store hx hslot rfl (by simp [argument, hts])) fun _ C₂ h₂ => ?_
  refine .bind (.load (hslot.mono h₂)) ?_
  rintro x C₃ ⟨h₃, hx, htx⟩
  have hC₃ := h₁.trans (h₂.trans h₃)
  refine .mono (.ret hx ?_ ?_) fun _ C₄ h₄ => ?_
  · rw [← hC₃.2.2.2]
    exact (hr.trans hret) ▸ hty
  · rw [← hC₃.2.2.2, htx, hts]
    exact hr ▸ Ty.sameRepr_refl _
  · rw [← (hC₃.trans h₄).2.2.1]
    simp [Context.addVar, hvs]

theorem inputBody_emitted (n : Nat) {format : Value} (hf : IsText format) :
    (inputBody n format).Emitted [] [] := by
  refine build_emitted rfl fun C hr hvs _ harg => ?_
  refine .bind (.callValue (by simp [Value.i64, Context.knows_int]) (by simp [Callee.accepts, Value.i64,
    Extern.malloc]) (by decide)) ?_
  rintro buffer C₁ ⟨h₁, hb, htb⟩
  refine .bind (.callValue (by simp [hf.knows, hb]) (by simp [Callee.accepts, Extern.scanf, hf.ty])
    (by decide)) ?_
  rintro _ C₂ ⟨h₂, _⟩
  rw [← hvs]
  exact ret_safe (h₁.trans h₂) hr (by decide) (hb.mono h₂) (by rw [htb]; rfl)

theorem strConcatBody_emitted : strConcatBody.Emitted ["a", "b"] [] := by
  refine build_emitted rfl fun C hr hvs _ harg => ?_
  have ha := harg "a" (by simp) stringTy
  have hb := harg "b" (by simp) stringTy
  refine .bind (.callValue (by simp [ha]) rfl (by decide)) ?_
  rintro m C₁ ⟨h₁, hm, htm⟩
  refine .bind (.callValue (by simp [hb.mono h₁]) rfl (by decide)) ?_
  rintro n C₂ ⟨h₂, hn, htn⟩
  refine .bind (.binary (hm.mono h₂) hn htm htn rfl) ?_
  rintro len C₃ ⟨h₃, hl, htl⟩
  refine .bind (.binary hl (C₃.knows_int _ _) htl rfl rfl) ?_
  rintro size C₄ ⟨h₄, hs, hts⟩
  refine .bind (.callValue (by simp [hs]) (by simp [Callee.accepts, Extern.malloc, hts]; rfl)
    (by decide)) ?_
  rintro buffer C₅ ⟨h₅, hbuf, htb⟩
  refine .bind (.callValue (by simp [hbuf, ha.mono (by order : C ≤ C₅)])
    (by simp [Callee.accepts, Extern.strcpy, htb, Extern.malloc, argument]) (by decide)) ?_
  rintro _ C₆ ⟨h₆, _⟩
  refine .bind (.callValue (by simp [hbuf.mono h₆, hb.mono (by order : C ≤ C₆)])
    (by simp [Callee.accepts, Extern.strcat, htb, Extern.malloc, argument]) (by decide)) ?_
  rintro _ C₇ ⟨h₇, _⟩
  rw [← hvs]
  exact ret_safe (by order) hr (by decide) (hbuf.mono (by order)) (by rw [htb]; rfl)

theorem strCharAtBody_emitted : strCharAtBody.Emitted ["s", "i"] [] := by
  refine build_emitted rfl fun C hr hvs _ harg => ?_
  have hs := harg "s" (by simp) stringTy
  have hi := harg "i" (by simp) .i32
  refine .bind (.callValue (by simp [Value.i64, Context.knows_int]) rfl (by decide)) ?_
  rintro buffer C₁ ⟨h₁, hb, htb⟩
  refine .bind (.gep (hs.mono h₁) (by simp [hi.mono h₁]) rfl (by simp [argument, Ty.isInt, Ty.bits?])) ?_
  rintro source C₂ ⟨h₂, hsrc, htsrc⟩
  refine .bind (.load hsrc) ?_
  rintro c C₃ ⟨h₃, hc, htc⟩
  refine .bind (.store hc (hb.mono (by order)) htb (by simp [htc, htsrc])) fun _ C₄ h₄ => ?_
  refine .bind (.gep (hb.mono (by order)) (by simp [Value.i32, Context.knows_int]) (by rw [htb]; rfl)
    (by simp [Value.i32, Ty.isInt, Ty.bits?])) ?_
  rintro last C₅ ⟨h₅, hl, htl⟩
  refine .bind (.store (C₅.knows_int _ _) hl rfl (by simp [htl])) fun _ C₆ h₆ => ?_
  rw [← hvs]
  exact ret_safe (by order) hr (by decide) (hb.mono (by order)) (by rw [htb]; rfl)

theorem strEqBody_emitted : strEqBody.Emitted ["a", "b"] [] := by
  refine build_emitted rfl fun C hr hvs _ harg => ?_
  refine .bind (.callValue (by simp [harg]) rfl (by decide)) ?_
  rintro order C₁ ⟨h₁, ho, hto⟩
  refine .bind (.icmp ho (C₁.knows_int _ _) (by rw [hto]; rfl)) ?_
  rintro eq C₂ ⟨h₂, he, hte⟩
  rw [← hvs]
  exact ret_safe (h₁.trans h₂) hr (by decide) he (by rw [hte]; rfl)

/-! ## Lists -/

theorem newList_safe (s : ListShape) {content size : Value} (hc : C.Knows content)
    (hs : C.Knows size) (htc : content.ty.isPtr = true) (hts : size.ty = .i32) :
    Build.Safe C (newList s content size) (Build.Gives C s.ptrTy) := by
  refine .bind (.sizeOf s.ty) ?_
  rintro bytes C₁ ⟨h₁, hb, htb⟩
  refine .bind (.callValue (by simp [hb]) (by simp [Callee.accepts, Extern.malloc, htb]) (by decide)) ?_
  rintro memory C₂ ⟨h₂, hm, htm⟩
  have hlist : C₂.Knows (memory.retyped s.ptrTy) := hm.of_operand rfl
  refine .bind (.field hlist rfl) ?_
  rintro f₀ C₃ ⟨h₃, hf₀, ht₀⟩
  refine .bind (.store (hc.mono (by order)) hf₀ rfl (by
    rw [ht₀]
    exact Ty.sameRepr_of_isPtr htc rfl)) fun _ C₄ h₄ => ?_
  refine .bind (.field (hlist.mono (by order)) rfl) ?_
  rintro f₁ C₅ ⟨h₅, hf₁, ht₁⟩
  refine .bind (.store (hs.mono (by order)) hf₁ rfl (by simp [ht₁, hts])) fun _ C₆ h₆ => ?_
  refine .bind (.field (hlist.mono (by order)) rfl) ?_
  rintro f₂ C₇ ⟨h₇, hf₂, ht₂⟩
  refine .bind (.store (C₇.knows_int _ _) hf₂ rfl (by rw [ht₂]; rfl)) fun _ C₈ h₈ => ?_
  exact .pure ⟨by order, hlist.mono (by order), rfl⟩

theorem listLenBody_emitted (s : ListShape) {message : Value} (hm : IsText message) :
    (listLenBody s message).Emitted ["list"] [] := by
  refine build_emitted rfl fun C hr hvs hfresh harg => ?_
  have hlist := harg "list" (by simp) s.ptrTy
  refine .bind (.appendBlock (hfresh _ (by decide))) ?_
  rintro check C₁ ⟨h₁, hn₁, htc, hf₁⟩
  refine .bind (.appendBlock (by rw [hf₁]; exact ⟨hfresh _ (by decide), by decide⟩)) ?_
  rintro ok C₂ ⟨h₂, hn₂, hto, hf₂⟩
  refine .bind (.appendBlock (by
    rw [hf₂, hf₁]
    exact ⟨⟨hfresh _ (by decide), by decide⟩, by decide⟩)) ?_
  rintro error C₃ ⟨h₃, hn₃, hte, _⟩
  rw [hn₁] at hn₂ hto
  rw [hn₂] at hn₃ hte
  refine .bind (.icmp (hlist.mono (by order)) (C₃.knows_null _) rfl) ?_
  rintro null C₄ ⟨h₄, hnull, htn⟩
  have hsub : C.names ⊆ C₄.names := (by order : C ≤ C₄).1
  refine .bind (.condBr hnull htn (hte.mono h₄) (htc.mono (by order)) hsub hsub) fun _ C₅ h₅ => ?_
  refine .bind (.moveTo (htc.mono (by order)) (by order : C ≤ C₅) subset_rfl) ?_
  rintro _ C₆ ⟨h₆, ht₆⟩
  have hto₆ := ht₆ (hto.mono (by order))
  have hte₆ := ht₆ (hte.mono (by order))
  refine .bind (.field (hlist.mono h₆) rfl) ?_
  rintro place C₇ ⟨h₇, hp, htp⟩
  refine .bind (.load hp) ?_
  rintro init C₈ ⟨h₈, hi, hti⟩
  have hsub : C.names ⊆ C₈.names := (by order : C ≤ C₈).1
  refine .bind (.condBr hi (hti.trans htp) (hto₆.mono (by order)) (hte₆.mono (by order)) hsub hsub)
    fun _ C₉ h₉ => ?_
  refine .bind (.moveTo (hto₆.mono (by order)) (by order : C ≤ C₉) subset_rfl) ?_
  rintro _ C₁₀ ⟨h₁₀, ht₁₀⟩
  have hte₁₀ := ht₁₀ (hte₆.mono (by order))
  refine .bind (.field (hlist.mono h₁₀) rfl) ?_
  rintro place C₁₁ ⟨h₁₁, hp, htp⟩
  refine .bind (.load hp) ?_
  rintro size C₁₂ ⟨h₁₂, hs, hts⟩
  have hret : C₁₂.ret = .i32 := (by order : C ≤ C₁₂).2.2.2 ▸ hr
  refine .bind (.ret hs (by rw [hret]; decide) (by rw [hret, hts, htp]; rfl)) fun _ C₁₃ h₁₃ => ?_
  refine .bind (.moveTo (hte₁₀.mono (by order)) (by order : C ≤ C₁₃) subset_rfl) ?_
  rintro _ C₁₄ ⟨h₁₄, _⟩
  exact (abort_safe hm).mono fun _ C₁₅ h₁₅ => (h₁₄.trans h₁₅).2.2.1 ▸ hvs

theorem listElemptrBody_emitted (s : ListShape) :
    (listElemptrBody s).Emitted ["list", "i"] [] := by
  refine build_emitted rfl fun C hr hvs _ harg => ?_
  have hlist := harg "list" (by simp) s.ptrTy
  have hi := harg "i" (by simp) .i32
  refine .bind (.field hlist rfl) ?_
  rintro place C₁ ⟨h₁, hp, htp⟩
  refine .bind (.load hp) ?_
  rintro content C₂ ⟨h₂, hc, htc⟩
  refine .bind (.gep hc (by simp [hi.mono (by order : C ≤ C₂)]) (by rw [htc, htp]; rfl)
    (by simp [argument, Ty.isInt, Ty.bits?])) ?_
  rintro elem C₃ ⟨h₃, he, hte⟩
  rw [← hvs]
  exact ret_safe (by order) hr (by simp [listElemptr]) he
    (by simp [listElemptr, Place.ptr, hte])

theorem listParts_safe (s : ListShape) {elemSize list : Value} (he : C.Knows elemSize)
    (hl : C.Knows list) (hte : elemSize.ty = .i64) (htl : list.ty.isPtr = true) :
    Build.Safe C (listParts s elemSize list) fun (n, content, bytes) C' =>
      C ≤ C' ∧ C'.Knows n ∧ C'.Knows content ∧ C'.Knows bytes ∧ n.ty = .i32 ∧
        content.ty.isPtr = true ∧ bytes.ty = .i64 := by
  refine .bind (.callValue (by simp [hl]) (by
    simp [Callee.accepts, listLen, Ty.sameRepr_of_isPtr htl (b := s.ptrTy) rfl]) (by simp [listLen])) ?_
  rintro n C₁ ⟨h₁, hn, htn⟩
  refine .bind (.field (hl.mono h₁) htl) ?_
  rintro place C₂ ⟨h₂, hp, htp⟩
  refine .bind (.load hp) ?_
  rintro content C₃ ⟨h₃, hc, htc⟩
  refine .bind (.cast (hn.mono (by order)) (by rw [htn]; rfl)) ?_
  rintro wide C₄ ⟨h₄, hw, htw⟩
  refine .bind (.binary hw (he.mono (by order)) htw hte rfl) ?_
  rintro bytes C₅ ⟨h₅, hb, htb⟩
  exact .pure ⟨by order, hn.mono (by order), hc.mono (by order), hb, htn, by rw [htc, htp]; rfl, htb⟩

theorem listConcatBody_emitted (s : ListShape) : (listConcatBody s).Emitted ["a", "b"] [] := by
  refine build_emitted rfl fun C hr hvs _ harg => ?_
  have ha := harg "a" (by simp) s.ptrTy
  have hb := harg "b" (by simp) s.ptrTy
  refine .bind (.sizeOf s.elem) ?_
  rintro elemSize C₁ ⟨h₁, he, hte⟩
  refine .bind (listParts_safe s he (ha.mono h₁) hte rfl) ?_
  rintro ⟨m, aContent, aBytes⟩ C₂ ⟨h₂, hm, hac, hab, htm, htac, htab⟩
  refine .bind (listParts_safe s (he.mono h₂) (hb.mono (by order)) hte rfl) ?_
  rintro ⟨n, bContent, bBytes⟩ C₃ ⟨h₃, hn, hbc, hbb, htn, htbc, htbb⟩
  refine .bind (.binary (hm.mono h₃) hn htm htn rfl) ?_
  rintro total C₄ ⟨h₄, ht, htt⟩
  refine .bind (.cast ht (by rw [htt]; rfl)) ?_
  rintro wide C₅ ⟨h₅, hw, htw⟩
  refine .bind (.binary hw (he.mono (by order)) htw hte rfl) ?_
  rintro bytes C₆ ⟨h₆, hby, htby⟩
  refine .bind (.callValue (by simp [hby]) (by simp [Callee.accepts, Extern.malloc, htby]) (by decide)) ?_
  rintro memory C₇ ⟨h₇, hmem, htmem⟩
  have hcontent : C₇.Knows (memory.retyped (.ptr s.elem)) := hmem.of_operand rfl
  refine .bind (.callValue (by simp [hcontent, hac.mono (by order : C₂ ≤ C₇),
    hab.mono (by order : C₂ ≤ C₇)]) (by
      simp [Callee.accepts, Extern.memcpy, htab, Value.retyped,
        Ty.sameRepr_of_isPtr htac (b := stringTy) rfl,
        Ty.sameRepr_of_isPtr (a := .ptr s.elem) (b := stringTy) rfl rfl]) (by decide)) ?_
  rintro _ C₈ ⟨h₈, _⟩
  refine .bind (.gep (hcontent.mono h₈) (by simp [hm.mono (by order : C₂ ≤ C₈)]) rfl
    (by simp [htm, Ty.isInt, Ty.bits?])) ?_
  rintro rest C₉ ⟨h₉, hrest, htrest⟩
  refine .bind (.callValue (by simp [hrest, hbc.mono (by order : C₃ ≤ C₉),
    hbb.mono (by order : C₃ ≤ C₉)]) (by
      simp [Callee.accepts, Extern.memcpy, htbb, Place.ptr,
        Ty.sameRepr_of_isPtr htbc (b := stringTy) rfl,
        Ty.sameRepr_of_isPtr (a := .ptr rest.ty) (b := stringTy) rfl rfl]) (by decide)) ?_
  rintro _ C₁₀ ⟨h₁₀, _⟩
  refine .bind (newList_safe s (hcontent.mono (by order)) (ht.mono (by order)) rfl htt) ?_
  rintro list C₁₁ ⟨h₁₁, hlist, htlist⟩
  rw [← hvs]
  exact ret_safe (by order) hr (by simp [listConcat, ListShape.ptrTy]) hlist
    (by simp [listConcat, htlist])

/-! ## What is added to a module -/

/-- The action adds functions that came about by steps, with arguments and slots for the given
parameters and variables, and gives back something that satisfies `Q`. -/
def Adds {α : Type} (x : Emit α) (names : List (List String × List String)) (Q : α → Prop) : Prop :=
  ∀ m, Q (x m).1 ∧ ∃ fs, (x m).2.functions = m.functions ++ fs ∧
    List.Forall₂ (fun f ns => f.Emitted ns.1 ns.2) fs names

namespace Adds

variable {α β : Type} {ns ns' : List (List String × List String)}

theorem bind {x : Emit α} {f : α → Emit β} {R : α → Prop} {Q : β → Prop} (hx : Adds x ns R)
    (hf : ∀ a, R a → Adds (f a) ns' Q) : Adds (x >>= f) (ns ++ ns') Q := by
  intro m
  obtain ⟨hR, fs, hfs, hns⟩ := hx m
  obtain ⟨hQ, gs, hgs, hns'⟩ := hf _ hR (x m).2
  refine ⟨hQ, fs ++ gs, ?_, List.rel_append hns hns'⟩
  rw [← List.append_assoc, ← hfs]
  exact hgs

theorem text (s : String) : Adds (Library.text s) [] IsText := by
  intro m
  unfold Library.text Module.addText
  split
  · exact ⟨⟨rfl, fun C => C.knows_global _ _⟩, [], (List.append_nil _).symm, .nil⟩
  · exact ⟨⟨rfl, fun C => C.knows_global _ _⟩, [], (List.append_nil _).symm, .nil⟩

theorem emit {f : Function} {ps vs : List String} (hf : f.Emitted ps vs) :
    Adds (Library.emit f) [(ps, vs)] fun _ => True :=
  fun _ => ⟨trivial, [f], rfl, .cons hf .nil⟩

theorem forM {x : α → Emit Unit} (h : ∀ a, Adds (x a) ns fun _ => True) :
    ∀ as : List α, Adds (as.forM x) (as.flatMap fun _ => ns) fun _ => True
  | [] => fun _ => ⟨trivial, [], (List.append_nil _).symm, .nil⟩
  | a :: as => bind (h a) fun _ _ => forM h as

end Adds

/-- The parameters and variables of the functions that do not depend on list shapes. -/
def localNames : List (List String × List String) :=
  [(["x"], []), (["x"], []), (["x"], []), (["a", "b"], []), (["x"], ["x"]), (["x"], ["x"]), ([], []),
    (["a", "b"], []), (["s", "i"], []), (["a", "b"], [])]

/-- The parameters and variables of the functions for a list shape. -/
def listLocalNames : List (List String × List String) :=
  [(["list"], []), (["list", "i"], []), (["a", "b"], [])]

theorem declareExterns_adds : Adds declareExterns [] fun _ => True := by
  have hdeclare : ∀ c, Adds (fun m => ((), m.declare c)) [] fun _ => True := fun _ _ =>
    ⟨trivial, [], (List.append_nil _).symm, .nil⟩
  have hall := Adds.forM hdeclare Extern.all
  rwa [List.flatMap_eq_nil_iff.2 fun _ _ => rfl] at hall

theorem emitAll_adds (n : Nat) : Adds (emitAll n) localNames fun _ => True :=
  .bind (.text _) fun _ hd =>
  .bind (.emit (printBody_emitted rfl rfl hd)) fun _ _ =>
  .bind (.text _) fun _ hf =>
  .bind (.text _) fun _ hy =>
  .bind (.text _) fun _ hn =>
  .bind (.emit (printboolBody_emitted hf hy hn)) fun _ _ =>
  .bind (.emit (printBody_emitted rfl rfl hf)) fun _ _ =>
  .bind (.text _) fun _ hm =>
  .bind (.emit (floordivBody_emitted hm)) fun _ _ =>
  .bind (.emit (identityBody_emitted rfl rfl (by decide))) fun _ _ =>
  .bind (.emit (identityBody_emitted rfl rfl (by decide))) fun _ _ =>
  .bind (.text _) fun _ hw =>
  .bind (.emit (inputBody_emitted n hw)) fun _ _ =>
  .bind (.emit strConcatBody_emitted) fun _ _ =>
  .bind (.emit strCharAtBody_emitted) fun _ _ =>
  .emit strEqBody_emitted

theorem emitList_adds (s : ListShape) : Adds (emitList s) listLocalNames fun _ => True :=
  .bind (.text _) fun _ hm =>
  .bind (.emit (listLenBody_emitted s hm)) fun _ _ =>
  .bind (.emit (listElemptrBody_emitted s)) fun _ _ =>
  .emit (listConcatBody_emitted s)

end Library

end ChocoCompiler
