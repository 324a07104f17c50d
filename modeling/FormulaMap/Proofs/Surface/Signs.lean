/-
Signs in the formula and signs on the surface.

The reader takes a minus for an operation when an operand has just ended, and the
refined map takes it for one when the node to its left cannot be followed by an operand.
In a row of glyphs the node to the left shows the token before, and that token ends an
operand exactly when its node cannot be followed by one (`opensOperand_surfaceKind`).
By induction along the row both therefore agree about every minus
(`Row.shows_refined`).
-/
import FormulaMap.Proofs.Formula.Provenance
import FormulaMap.Proofs.Surface.Rows

namespace FormulaMap

namespace SyntaxTree

/-- The kind of the refined node that shows a token with this use. -/
def surfaceKind (u : Token × Use) : Kind :=
  if isMinusGlyph u.1.text then
    if followsOperand u then .minusBinary else .minusUnary
  else u.1.refinedKind

variable {u : Token × Use}

/-- A minus after the node is a sign exactly when no operand ends with the token. -/
theorem opensOperand_surfaceKind (h : u.1.isGlyph = true) :
    (surfaceKind u).opensOperand = !endsOperand u := by
  rw [surfaceKind]
  split
  · next hminus =>
    have hk := Token.kind_of_isMinusGlyph h hminus
    rw [endsOperand, hk]
    split <;> rfl
  · by_cases hk : u.1.kind = .number
    · have hnumeric := Token.refinedKind_of_number hk
      rw [endsOperand, hk]
      cases hkind : u.1.refinedKind <;> rw [hkind] at hnumeric <;>
        first | rfl | exact absurd hnumeric Bool.false_ne_true
    · rw [Token.refinedKind_of_ne_number h hk, Token.category, endsOperand]
      rcases Token.kind_of_isGlyph h with hk' | hk' | hk' | hk'
      · exact absurd hk' hk
      · rw [hk']; rfl
      · rw [hk']; rfl
      · rw [hk']; rfl

end SyntaxTree

namespace Enhance

open SyntaxTree

/-- The node shows the token, and its kind is settled unless it is a minus. -/
structure Settled (u : Token × Use) (n : Node Rat) : Prop where
  face : n.face = u.1.face n.kind
  kind : isMinusGlyph u.1.text = false → n.kind = u.1.refinedKind

variable {us : List (Token × Use)} {ns : List (Node Rat)}

theorem glyphs_of_face {t : Token} (ht : t.isGlyph = true) {n : Node Rat} {k : Kind}
    (h : n.face = t.face k) : n.glyphs = t.text.toList := by
  have htext : n.text = t.text := congrArg Node.Face.text h
  rw [Node.glyphs, htext, Token.trimChars_of_isGlyph ht]

theorem Settled.text {u : Token × Use} {n : Node Rat} (h : Settled u n)
    (hu : u.1.isGlyph = true) : String.ofList n.glyphs = u.1.text := by
  rw [glyphs_of_face hu h.face, String.ofList_toList]

theorem face_withKind {t : Token} {n : Node Rat} {k : Kind} (h : n.face = t.face k) (k' : Kind) :
    ({ n with kind := k' } : Node Rat).face = t.face k' :=
  congrArg (fun f : Node.Face => { f with kind := k' }) h

theorem settled_reclassifyNode {u : Token × Use} (hu : u.1.isGlyph = true) {n : Node Rat}
    (h : n.face = u.1.face u.1.category.kind) : Settled u (reclassifyNode n) := by
  have hkind : n.kind = u.1.category.kind := congrArg Node.Face.kind h
  unfold reclassifyNode
  dsimp only
  rw [glyphs_of_face hu h, Token.not_hasGreek_of_isGlyph hu, if_neg Bool.false_ne_true]
  split
  · next hdecimal => exact ⟨face_withKind h .decimal, fun _ => (if_pos hdecimal).symm⟩
  · next hdecimal =>
    rw [← hkind] at h
    exact ⟨h, fun _ => hkind.trans (if_neg hdecimal).symm⟩

theorem settled_resolveNode {ratio : Rat} {u : Token × Use} (hu : u.1.isGlyph = true) {n : Node Rat}
    (h : Settled u n) (seen : List (Node Rat)) : Settled u (resolveNode ratio seen n) := by
  rw [resolveNode, h.text hu]
  split
  · next hminus =>
    exact ⟨face_withKind h.face _, fun hno => absurd (hminus.symm.trans hno) (by decide)⟩
  · exact h

theorem settled_resolveAfter (ratio : Rat) (h : List.Forall₂ Settled us ns)
    (hus : ∀ u ∈ us, u.1.isGlyph = true) (seen : List (Node Rat)) :
    List.Forall₂ Settled us (resolveAfter ratio seen ns) := by
  induction h generalizing seen with
  | nil => exact .nil
  | cons hu _ ih =>
    rw [resolveAfter]
    exact .cons (settled_resolveNode (hus _ List.mem_cons_self) hu seen)
      (ih (fun v hv => hus v (List.mem_cons_of_mem _ hv)) _)

/-- The kind of a settled node is the one that its use asks for, if that of a minus is. -/
theorem Settled.face_eq {u : Token × Use} {n : Node Rat} (h : Settled u n)
    (hminus : isMinusGlyph u.1.text = true →
      n.kind = if followsOperand u then .minusBinary else .minusUnary) :
    n.face = u.1.face (surfaceKind u) := by
  have hkind : n.kind = surfaceKind u := by
    rw [surfaceKind]
    split
    · next hglyph => exact hminus hglyph
    · next hglyph => exact h.kind (Bool.eq_false_iff.2 hglyph)
  rw [h.face, hkind]

/-- A minus has its kind from the node before it. -/
theorem face_of_follows {u v : Token × Use} {n p : Node Rat} (hu : u.1.isGlyph = true)
    (hv : v.1.isGlyph = true) (hends : endsOperand v = followsOperand u)
    (hp : p.kind = surfaceKind v) (h : Settled u n) (hfollows : Follows p n) :
    n.face = u.1.face (surfaceKind u) := by
  refine h.face_eq fun hminus => ?_
  rw [hfollows ((h.text hu).symm ▸ hminus), hp, opensOperand_surfaceKind hv, hends]
  cases followsOperand u <;> rfl

/-- Along a row the kind of every node is the one that its use asks for. -/
theorem faces_of_isChain {v : Token × Use} {p : Node Rat} (hv : v.1.isGlyph = true)
    (hp : p.kind = surfaceKind v) (h : List.Forall₂ Settled us ns)
    (hus : ∀ u ∈ us, u.1.isGlyph = true)
    (hends : (v :: us).IsChain fun a b => endsOperand a = followsOperand b)
    (hfollows : (p :: ns).IsChain Follows) :
    List.Forall₂ (fun u n => n.face = u.1.face (surfaceKind u)) us ns := by
  induction h generalizing v p with
  | nil => exact .nil
  | @cons u n us ns hu _ ih =>
    obtain ⟨hfirst, hrest⟩ := List.isChain_cons_cons.1 hends
    obtain ⟨hfirst', hrest'⟩ := List.isChain_cons_cons.1 hfollows
    have huglyph := hus u List.mem_cons_self
    have hface := face_of_follows huglyph hv hfirst hp hu hfirst'
    refine .cons hface (ih huglyph (congrArg Node.Face.kind hface) ?_ hrest hrest')
    exact fun w hw => hus w (List.mem_cons_of_mem u hw)

end Enhance

/-! ## The refined map of a row -/

namespace Line

open Enhance SyntaxTree

/-- On a line that shows the tokens of a tree, minus signs are resolved as they were read. -/
theorem faces_resolveMinus {us : List (Token × Use)} {ns : List (Node Rat)} (h : Line ns)
    {ratio : Rat} (hratio : ratio < 1) (hus : ∀ u ∈ us, u.1.isGlyph = true)
    (halternates : Alternates us) (hsettled : List.Forall₂ Settled us ns) :
    List.Forall₂ (fun u n => n.face = u.1.face (surfaceKind u)) us (resolveMinus ratio ns) := by
  obtain ⟨hchain, hfirst⟩ := h.isChain_resolveMinus hratio
  have hresolved := settled_resolveAfter ratio hsettled hus []
  rw [← resolveMinus] at hresolved
  generalize resolveMinus ratio ns = qs at hchain hfirst hresolved ⊢
  cases hresolved with
  | nil => exact .nil
  | @cons u n us qs hu hrest =>
    have huglyph := hus u List.mem_cons_self
    obtain ⟨_, hhead, hnot⟩ := halternates.first
    obtain rfl := Option.some.inj hhead
    have hface := hu.face_eq fun hminus => by
      rw [hnot, if_neg Bool.false_ne_true]
      exact hfirst n rfl ((hu.text huglyph).symm ▸ hminus)
    refine .cons hface (faces_of_isChain huglyph (congrArg Node.Face.kind hface) hrest ?_
      halternates.chain hchain)
    exact fun w hw => hus w (List.mem_cons_of_mem u hw)

/-- Refining gives the nodes of the tokens the kinds that the uses ask for. -/
theorem faces_refined {us : List (Token × Use)} {ns : List (Node Rat)} (h : Line ns) {ratio : Rat}
    (hratio : ratio < 1) (hus : ∀ u ∈ us, u.1.isGlyph = true) (halternates : Alternates us)
    (hbuilt : List.Forall₂ (fun u n => n.face = u.1.face u.1.category.kind) us ns) :
    List.Forall₂ (fun u n => n.face = u.1.face (surfaceKind u)) us
      (resolveMinus ratio (reclassify ns)) := by
  have hline : Line (reclassify ns) := by
    rw [← Line.map_unrefined_iff, map_unrefined_reclassify, Line.map_unrefined_iff]
    exact h
  refine hline.faces_resolveMinus hratio hus halternates ?_
  rw [reclassify, List.forall₂_map_right_iff]
  exact ((List.forall₂_and_left _ _).2 ⟨hus, hbuilt⟩).imp fun u n hu =>
    settled_reclassifyNode hu.1 hu.2

end Line

theorem forall₂_iff_map_eq {β γ δ : Type} {f : β → δ} {g : γ → δ} {xs : List β} {ys : List γ} :
    List.Forall₂ (fun x y => g y = f x) xs ys ↔ ys.map g = xs.map f := by
  rw [eq_comm, ← List.forall₂_eq_eq_eq, List.forall₂_map_left_iff, List.forall₂_map_right_iff]
  simp only [eq_comm]

namespace Row

open SurfaceMap Enhance SyntaxTree

variable {ts : List Token}

/-- The map of a row, before it is joined. -/
def refined (row : Row ts) (t : Tolerances Rat) (container : Address) : SurfaceMap Rat :=
  (build t container row.layout).enhance t

/-- What the leaves of the map of a row are when the tokens have these uses: they are read
in order, and each is made from the element of its token and has the kind of its use. -/
structure Shows (us : List (Token × Use)) (t : Tolerances Rat) (container : Address)
    (m : SurfaceMap Rat) : Prop where
  inOrder : m.leaves t = m.root.leaves
  sources : m.root.leaves.map (·.source) =
    (List.range us.length).map fun i => groupAddress container ++ [i]
  faces : List.Forall₂ (fun u n => n.face = u.1.face (surfaceKind u)) us m.root.leaves

theorem shows_refined (row : Row ts) {s : SyntaxTree} (hs : s.Formed) (htokens : s.tokens = ts)
    (hts : ∀ t ∈ ts, t.isGlyph = true) {t : Tolerances Rat} (hcolumns : 0 ≤ t.columnOverlap)
    (hminus : t.minusOverlap < 1) (container : Address) (p : String) :
    Shows (s.uses p) t container (row.refined t container) := by
  obtain ⟨u, hu, hnumber⟩ := exists_number hs
  rw [htokens] at hu
  obtain ⟨r, w, ns, hspine, hshown⟩ := row.exists_spineOver hts ⟨u, hu, hnumber⟩ t container
  have hfst : (s.uses p).map Prod.fst = ts := (map_fst_uses s p).trans htokens
  have hlength : (s.uses p).length = ts.length := by simpa using congrArg List.length hfst
  have hus : ∀ u ∈ s.uses p, u.1.isGlyph = true := fun u hu =>
    hts u.1 (hfst ▸ List.mem_map_of_mem hu)
  have hne : ns ≠ [] := by
    rintro rfl
    rw [List.map_eq_nil_iff.1 hshown.faces.symm] at hu
    exact List.not_mem_nil hu
  obtain ⟨hinOrder, hunslotted, hunrefined⟩ := hspine.leaves_enhance hne hcolumns
  have hbuilt : List.Forall₂ (fun u n => n.face = u.1.face u.1.category.kind) (s.uses p) ns := by
    rw [forall₂_iff_map_eq, hshown.faces, ← hfst, List.map_map]
    rfl
  have hfaces := hspine.line.faces_refined hminus hus (alternates_uses hs p) hbuilt
  refine ⟨hinOrder, ?_, ?_⟩
  · have hsources := congrArg (List.map Node.source) hunrefined
    rw [List.map_map, List.map_map] at hsources
    rw [hlength]
    exact hsources.trans hshown.sources
  · have hface := congrArg (List.map Node.face) hunslotted
    rw [List.map_map, List.map_map] at hface
    exact forall₂_iff_map_eq.2 (hface.trans (forall₂_iff_map_eq.1 hfaces))

end Row
end FormulaMap
