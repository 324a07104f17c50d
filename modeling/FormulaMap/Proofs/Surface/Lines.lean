/-
Nodes side by side on one line.

A line is read from left to right, and that is also its spatial order.  Any two of its
nodes stand on one line in the sense of the pass that resolves minus signs, so the atom
to the left of a minus is the one before it, and the kind of each minus depends on the
kind of its neighbour alone (`Line.isChain_resolveMinus`).
-/
import FormulaMap.Proofs.Surface.Columns
import FormulaMap.Surface.Enhance

namespace FormulaMap

/-- Nodes of one height side by side, none of which encloses another. -/
structure Line (ns : List (Node Rat)) : Prop where
  wide : ∀ n ∈ ns, n.box.left < n.box.right
  tall : ∀ n ∈ ns, n.box.top < n.box.bottom
  level : ∀ a ∈ ns, ∀ b ∈ ns, b.box.top = a.box.top ∧ b.box.bottom = a.box.bottom
  apart : ns.Pairwise fun a b => a.box.right ≤ b.box.left
  unrelated : ∀ a ∈ ns, ∀ b ∈ ns, a.related b = false

namespace Line

open ReadingOrder Enhance

variable {ns : List (Node Rat)}

theorem pairwise_left (h : Line ns) : ns.Pairwise fun a b => a.box.left < b.box.left :=
  h.apart.imp_of_mem fun ha _ hab => (h.wide _ ha).trans_le hab

/-! ## Orders -/

theorem fromLeft_eq (h : Line ns) : fromLeft ns = ns :=
  sortBy_of_ascends (Coordinate.ranks_of_key (fun n : Node Rat => n.box.left)
    fun _ => isNumber_rat _) (h.pairwise_left.imp fun hab => decide_eq_false (not_lt.2 hab.le))

theorem columns_eq (h : Line ns) {ratio : Rat} (hratio : 0 ≤ ratio) :
    columns ratio ns = ns.map fun n => [n] := by
  rw [columns, h.fromLeft_eq]
  refine runs_of_apart (List.Pairwise.isChain (h.apart.imp_of_mem fun ha hb hab => ?_))
  exact sameColumn_of_apart hratio (h.wide _ ha).le (h.wide _ hb).le hab

/-- A line is read from left to right. -/
theorem leaves_node (h : Line ns) {ratio : Rat} (hratio : 0 ≤ ratio) (hne : ns ≠ [])
    (parent : Node Rat) : leaves ratio (.node parent (ns.map fun n => .node n [])) = ns := by
  rw [leaves_node_of_leaves ratio parent hne, h.columns_eq hratio, List.flatMap_map]
  exact List.flatMap_singleton' ns

theorem spatialOrder_eq (h : Line ns) : spatialOrder ns = ns := by
  have hcorner (n : Node Rat) : IsNumber (corner n).1 ∧ IsNumber (corner n).2 :=
    ⟨isNumber_rat _, isNumber_rat _⟩
  refine sortBy_of_ascends (Coordinate.ranks_of_pair corner hcorner)
    (h.pairwise_left.imp fun hab => ?_)
  exact (Coordinate.before_eq_false_iff (hcorner _) (hcorner _)).2
    ⟨hab.le, fun hle => absurd hab (not_lt.2 hle)⟩

/-! ## The atom before a minus -/

theorem sameLine_eq (h : Line ns) {ratio : Rat} (hratio : ratio < 1) {a b : Node Rat} (ha : a ∈ ns)
    (hb : b ∈ ns) : sameLine ratio b a = true := by
  obtain ⟨htop, hbottom⟩ := h.level a ha b hb
  have htall := h.tall a ha
  rw [sameLine, Box.verticalOverlap, decide_eq_true_eq, Box.height_of_lt htall,
    Box.height_of_lt (h.tall b hb), htop, hbottom, Coordinate.smaller_eq_min,
    Coordinate.smaller_eq_min, Coordinate.larger_eq_max, min_self, min_self, max_self]
  nlinarith

end Line

namespace Enhance

variable {α : Type} [Coordinate α]

theorem resolveNode_eq (ratio : α) (seen : List (Node α)) (n : Node α) :
    ∃ k, resolveNode ratio seen n = { n with kind := k } := by
  unfold resolveNode
  split
  · exact ⟨_, rfl⟩
  · exact ⟨n.kind, rfl⟩

/-- The atom is the one that decides about a minus which comes after it. -/
def Beside (ratio : α) (p n : Node α) : Prop :=
  n.related p = false ∧ sameLine ratio n p = true

/-- Which nodes are beside each other does not depend on their kinds. -/
theorem isChain_beside_resolveNode {ratio : α} {n : Node α} {ns : List (Node α)}
    (h : (n :: ns).IsChain (Beside ratio)) (seen : List (Node α)) :
    (resolveNode ratio seen n :: ns).IsChain (Beside ratio) := by
  obtain ⟨k, hk⟩ := resolveNode_eq ratio seen n
  rw [hk]
  cases ns with
  | nil => exact .singleton _
  | cons n' ns => exact .cons_cons (List.isChain_cons_cons.1 h).1 (List.isChain_cons_cons.1 h).2

/-- A minus is what the kind of the node before it makes it. -/
def Follows (p n : Node α) : Prop :=
  isMinusGlyph (String.ofList n.glyphs) = true →
    n.kind = if p.kind.opensOperand then .minusUnary else .minusBinary

theorem minusKind_cons {ratio : α} {p n : Node α} (h : Beside ratio p n) (seen : List (Node α)) :
    minusKind ratio (p :: seen) n = if p.kind.opensOperand then .minusUnary else .minusBinary := by
  have hfound : (p :: seen).find? (fun other => !n.related other && sameLine ratio n other) =
      some p := List.find?_cons_of_pos (by rw [h.1, h.2]; rfl)
  rw [minusKind, hfound]

theorem follows_resolveNode {ratio : α} {p n : Node α} (h : Beside ratio p n)
    (seen : List (Node α)) : Follows p (resolveNode ratio (p :: seen) n) := by
  unfold resolveNode
  split
  · exact fun _ => minusKind_cons h seen
  · next hminus => exact fun hglyph => absurd hglyph hminus

theorem isChain_resolveAfter {ratio : α} {p : Node α} {ns : List (Node α)}
    (h : (p :: ns).IsChain (Beside ratio)) (seen : List (Node α)) :
    (p :: resolveAfter ratio (p :: seen) ns).IsChain Follows := by
  induction ns generalizing p seen with
  | nil => exact .singleton p
  | cons n ns ih =>
    obtain ⟨hfirst, hrest⟩ := List.isChain_cons_cons.1 h
    rw [resolveAfter]
    exact .cons_cons (follows_resolveNode hfirst seen)
      (ih (isChain_beside_resolveNode hrest _) (p :: seen))

/-- What is no minus sign is left alone. -/
theorem resolveAfter_of_no_minus (ratio : α) {ns : List (Node α)}
    (h : ∀ n ∈ ns, isMinusGlyph (String.ofList n.glyphs) = false) (seen : List (Node α)) :
    resolveAfter ratio seen ns = ns := by
  induction ns generalizing seen with
  | nil => rfl
  | cons n ns ih =>
    have hnode : resolveNode ratio seen n = n := by
      rw [resolveNode, h n List.mem_cons_self, if_neg Bool.false_ne_true]
    rw [resolveAfter, hnode, ih (fun a ha => h a (List.mem_cons_of_mem n ha))]

end Enhance

namespace Line

open Enhance

/-- On a line every minus is what the kind of its neighbour to the left makes it, and the
first one is a sign. -/
theorem isChain_resolveMinus {ns : List (Node Rat)} (h : Line ns) {ratio : Rat}
    (hratio : ratio < 1) :
    (resolveMinus ratio ns).IsChain Follows ∧
      ∀ n ∈ (resolveMinus ratio ns).head?,
        isMinusGlyph (String.ofList n.glyphs) = true → n.kind = .minusUnary := by
  cases ns with
  | nil => exact ⟨.nil, fun n hn => absurd hn (by simp [resolveMinus, resolveAfter])⟩
  | cons n ns =>
    have hbeside : (n :: ns).IsChain (Beside ratio) :=
      List.Pairwise.isChain (List.pairwise_of_forall_mem_list fun a ha b hb =>
        ⟨h.unrelated b hb a ha, h.sameLine_eq hratio ha hb⟩)
    rw [resolveMinus, resolveAfter]
    refine ⟨isChain_resolveAfter (isChain_beside_resolveNode hbeside []) [], ?_⟩
    intro m hm hminus
    obtain rfl := Option.some.inj hm
    obtain ⟨k, hk⟩ := resolveNode_eq ratio [] n
    have hglyph : isMinusGlyph (String.ofList n.glyphs) = true := by
      rw [hk] at hminus
      exact hminus
    rw [resolveNode, if_pos hglyph]
    rfl

end Line
end FormulaMap
