/-
Rows joined to the expression of their tokens.

A row shows the tokens of a formula, and the reader has made an expression of them.  In
the map of the row every minus is taken for what it was read as, and every numeral and
every operation is joined to the node that its token has become (`Row.agrees`).  With
signs it is different.  A sign before a numeral becomes part of the numeral and is in the
way of the signs after it, since signs are dealt by position: `Row.signs_agree_iff` says
which rows are still joined as they should be.
-/
import FormulaMap.Proofs.Surface.Agreement

namespace FormulaMap
namespace Row

open SurfaceMap SyntaxTree

variable {ts : List Token}

/-! ## Rows of equal boxes -/

/-- Square glyphs of size ten, one after another. -/
def stripGlyphs (ts : List Token) : List (Element Rat) :=
  ts.zipIdx.map fun (t, i) => ⟨[Token.glyphClass], t.text, ⟨10 * i, 0, 10 * i + 10, 10⟩, []⟩

/-- Every list of tokens has a row. -/
def strip (ts : List Token) : Row ts where
  container := ⟨["katex"], "", ⟨0, 0, 10 * ts.length, 10⟩, []⟩
  formula := ⟨[formulaClass], "", ⟨0, 0, 10 * ts.length, 10⟩, []⟩
  base := ⟨[groupClass], "", ⟨0, 0, 10 * ts.length, 10⟩, []⟩
  glyphs := stripGlyphs ts
  formula_classes := rfl
  base_classes := rfl
  base_text := rfl
  glyph_classes := List.forall_mem_map.2 fun _ _ => rfl
  texts := by
    rw [stripGlyphs, List.map_map, ← List.zipIdx_map_fst 0 ts, List.map_map, List.zipIdx_map_fst]
    rfl
  wide := List.forall_mem_map.2 fun _ _ => lt_add_of_pos_right _ (by norm_num)
  tall := List.forall_mem_map.2 fun _ _ => by norm_num
  level := List.forall_mem_map.2 fun _ _ => List.forall_mem_map.2 fun _ _ => ⟨rfl, rfl⟩
  apart := by
    have hindices : (ts.zipIdx.map Prod.snd).Pairwise (· < ·) := by
      rw [List.zipIdx_map_snd]
      exact List.pairwise_lt_range'
    rw [stripGlyphs, List.pairwise_map]
    refine (List.pairwise_map.1 hindices).imp fun {a b} hab => ?_
    have hnext : (a.2 : Rat) + 1 ≤ b.2 := by exact_mod_cast hab
    show (10 * a.2 + 10 : Rat) ≤ 10 * b.2
    linarith

/-! ## Joined rows -/

/-- The map of a row, joined to an expression. -/
def joined (row : Row ts) (t : Tolerances Rat) (container : Address) (e : Expr) :
    SurfaceMap Rat :=
  ((row.refined t container).join t e.assignPaths).1

theorem standard_columnOverlap : 0 ≤ (Tolerances.standard : Tolerances Rat).columnOverlap := by
  decide +kernel

theorem standard_minusOverlap : (Tolerances.standard : Tolerances Rat).minusOverlap < 1 := by
  decide +kernel

section
variable {e : Expr} {s : SyntaxTree} {t : Tolerances Rat}

theorem aligned (row : Row ts) (hs : Parsed.Traced ts e s) (hts : ∀ u ∈ ts, u.isGlyph = true)
    (hcolumns : 0 ≤ t.columnOverlap) (hminus : t.minusOverlap < 1) (container : Address) :
    let m := row.refined t container
    (s.uses Path.root).length = m.root.leaves.length ∧
      Aligned e.assignPaths t m ((s.uses Path.root).zip m.root.leaves) := by
  intro m
  have hroot : Path.root ≠ "" := by decide
  have hshows := row.shows_refined hs.formed hs.tokens hts hcolumns hminus container Path.root
  obtain ⟨hlength, hfaces⟩ := List.forall₂_iff_zip.1 hshows.faces
  have hfst : ((s.uses Path.root).zip m.root.leaves).map Prod.fst = s.uses Path.root :=
    List.map_fst_zip hlength.le
  have htokens : (s.uses Path.root).map Prod.fst = ts :=
    (map_fst_uses s Path.root).trans hs.tokens
  refine ⟨hlength, ready_refined t container row.layout, hshows.inOrder,
    (List.map_snd_zip hlength.ge).symm, ?_, ?_, ?_⟩
  · intro z hz
    have hmem : z.1 ∈ s.uses Path.root := (List.of_mem_zip hz).1
    exact ⟨hts _ (htokens ▸ List.mem_map_of_mem hmem), hs.names _ hmem, hfaces hz⟩
  · rw [← hs.expr, Expr.assignPaths, map_fst_numeralEntries hs.formed hroot]
    conv_lhs => rw [← hfst, List.filterMap_map]
    rfl
  · rw [← hs.expr, Expr.assignPaths, operatorEntries_eq_filterMap hs.formed hroot]
    conv_lhs => rw [← hfst, List.filterMap_map]
    rfl

theorem forall₂_map_iff_zip {R : Token × Use → Node Rat → Prop} {f : Node Rat → Node Rat}
    {us : List (Token × Use)} {ns : List (Node Rat)} (hlength : us.length = ns.length) :
    List.Forall₂ R us (ns.map f) ↔ ∀ z ∈ us.zip ns, R z.1 (f z.2) := by
  rw [List.forall₂_map_right_iff, List.forall₂_iff_zip]
  exact ⟨fun h z hz => h.2 hz, fun h => ⟨hlength, fun hz => h _ hz⟩⟩

/-- The leaves of a joined row are made from the elements of the tokens and agree with their
uses, and signs do so too when none that is part of a numeral stands before a negation. -/
theorem leaves_joined (row : Row ts) (hs : Parsed.Traced ts e s) (hts : ∀ u ∈ ts, u.isGlyph = true)
    (hcolumns : 0 ≤ t.columnOverlap) (hminus : t.minusOverlap < 1) (container : Address) :
    let leaves := (row.joined t container e).root.leaves
    leaves.map (·.source) =
        (List.range ts.length).map (fun i => groupAddress container ++ [i]) ∧
      List.Forall₂ Agrees (s.uses Path.root) leaves ∧
      (List.Forall₂ SignAgrees (s.uses Path.root) leaves ↔
        (s.uses Path.root).Pairwise fun a b => a.2 = .folded → ∀ p, b.2 ≠ .sign p) := by
  obtain ⟨hlength, haligned⟩ := row.aligned hs hts hcolumns hminus container
  obtain ⟨f, hf, hwritten⟩ := rewritten_join t e.assignPaths (row.refined t container)
  have hleaves : (row.joined t container e).root.leaves =
      (row.refined t container).root.leaves.map f := by
    rw [joined, hf, mapNodes, Tree.leaves_map]
  have hlengths : (s.uses Path.root).length = ts.length := by
    simpa using congrArg List.length ((map_fst_uses s Path.root).trans hs.tokens)
  intro leaves
  refine ⟨?_, ?_, ?_⟩
  · have hshows := row.shows_refined hs.formed hs.tokens hts hcolumns hminus container Path.root
    rw [← hlengths, ← hshows.sources]
    show List.map _ (row.joined t container e).root.leaves = _
    rw [hleaves, List.map_map]
    refine List.map_congr_left fun n hn => (hwritten n ?_).source
    exact (Tree.leaves_sublist_preorder _).subset hn
  · show List.Forall₂ Agrees _ (row.joined t container e).root.leaves
    rw [hleaves, forall₂_map_iff_zip hlength]
    exact fun z hz => haligned.agrees hf hwritten hz
  · show List.Forall₂ SignAgrees _ (row.joined t container e).root.leaves ↔ _
    rw [hleaves, forall₂_map_iff_zip hlength, haligned.signs_agree_iff hf hwritten,
      List.map_fst_zip hlength.le]

end

theorem not_fraction {t : Token} (h : t.isGlyph = true) : t.kind ≠ .mixed ∧ t.kind ≠ .fraction := by
  rcases Token.kind_of_isGlyph h with hk | hk | hk | hk <;> rw [hk] <;>
    exact ⟨TokenKind.noConfusion, TokenKind.noConfusion⟩

/-- In the map of a row the leaves are those of the tokens, in order.  Every minus is what it
was read as, and every numeral and operation is joined to the node of its token. -/
theorem leaves_agree {e : Expr} (row : Row ts) (hts : ∀ u ∈ ts, u.isGlyph = true)
    (h : Parsed.ofTokens ts = ⟨some e, []⟩) (container : Address) :
    ∃ s, Parsed.Traced ts e s ∧
      let leaves := (row.joined .standard container e).root.leaves
      leaves.map (·.source) =
          (List.range ts.length).map (fun i => groupAddress container ++ [i]) ∧
        List.Forall₂ Agrees (s.uses Path.root) leaves := by
  obtain ⟨s, hs⟩ := Parsed.exists_traced (fun u hu => not_fraction (hts u hu)) h
  obtain ⟨hsources, hagree, -⟩ :=
    row.leaves_joined hs hts standard_columnOverlap standard_minusOverlap container
  exact ⟨s, hs, hsources, hagree⟩

namespace Difference

/-- One minus two, the second with a sign and in brackets. -/
def tokens : List Token :=
  [⟨.number, "1"⟩, ⟨.operator, "-"⟩, ⟨.openParen, "("⟩, ⟨.operator, "-"⟩, ⟨.number, "2"⟩,
   ⟨.closeParen, ")"⟩]

def expr : Expr := .binary .subtract (.numeral "1" none) (.numeral "-2" none) none

theorem leaves_agree_strip :
    Parsed.ofTokens tokens = ⟨some expr, []⟩ ∧
      ∃ s, Parsed.Traced tokens expr s ∧
        let leaves := ((strip tokens).joined .standard [] expr).root.leaves
        leaves.map (fun n => (n.kind, n.path)) =
            [(.num, some "term[0]"), (.minusBinary, some "root"), (.parenOpen, none),
             (.minusUnary, none), (.num, some "term[1]"), (.parenClose, none)] ∧
          List.Forall₂ Agrees (s.uses Path.root) leaves := by
  have hread : Parsed.ofTokens tokens = ⟨some expr, []⟩ := by decide +kernel
  obtain ⟨s, hs, -, hagree⟩ := leaves_agree (strip tokens) (by decide +kernel) hread []
  refine ⟨hread, s, hs, ?_, hagree⟩
  decide +kernel

end Difference

/-- Signs are joined to their negations, and those that are part of a numeral to nothing,
exactly when no sign that is part of a numeral stands before a negation. -/
theorem signs_joined_iff {e : Expr} (row : Row ts) (hts : ∀ u ∈ ts, u.isGlyph = true)
    (h : Parsed.ofTokens ts = ⟨some e, []⟩) (container : Address) :
    ∃ s, Parsed.Traced ts e s ∧
      (List.Forall₂ SignAgrees (s.uses Path.root) (row.joined .standard container e).root.leaves ↔
        (s.uses Path.root).Pairwise fun a b => a.2 = .folded → ∀ p, b.2 ≠ .sign p) := by
  obtain ⟨s, hs⟩ := Parsed.exists_traced (fun u hu => not_fraction (hts u hu)) h
  obtain ⟨-, -, hsigns⟩ :=
    row.leaves_joined hs hts standard_columnOverlap standard_minusOverlap container
  exact ⟨s, hs, hsigns⟩

namespace SignedSum

open FormulaMap.Parser

def one : Token := ⟨.number, "1"⟩
def two : Token := ⟨.number, "2"⟩
def three : Token := ⟨.number, "3"⟩
def plus : Token := ⟨.operator, "+"⟩
def minus : Token := ⟨.operator, "-"⟩
def opening : Token := ⟨.openParen, "("⟩
def closing : Token := ⟨.closeParen, ")"⟩

/-- Minus one, and minus the sum of two and three. -/
def tokens : List Token := [minus, one, plus, minus, opening, two, plus, three, closing]

def tree : SyntaxTree :=
  .joined .add (.signed minus (.numeral one)) plus
    (.signed minus (.bracketed opening (.joined .add (.numeral two) plus (.numeral three)) closing))

theorem builds_tree : Builds (.chain true) tokens tree [] := by
  have hsum : Builds (.chain true) [two, plus, three, closing]
      (.joined .add (.numeral two) plus (.numeral three)) [closing] := by
    refine .chain (.chain (.numeral rfl (by decide) ?_) (.stop (by decide)))
      (.more (by decide) (.chain (.numeral rfl (by decide) ?_) (.stop (by decide)))
        (.stop (by decide)))
    · rintro _ _ ⟨⟩
      decide
    · rintro _ _ ⟨⟩
      decide
  have hleft : Builds (.chain false) tokens (.signed minus (.numeral one))
      [plus, minus, opening, two, plus, three, closing] := by
    refine .chain (.signed rfl (by decide) (.numeral rfl (by decide) ?_)) (.stop (by decide))
    rintro _ _ ⟨⟩
    decide
  have hright : Builds (.chain false) [minus, opening, two, plus, three, closing]
      (.signed minus (.bracketed opening (.joined .add (.numeral two) plus (.numeral three)) closing))
      [] :=
    .chain (.signed rfl (by decide) (.bracketed rfl hsum rfl)) (.stop (by decide))
  exact .chain hleft (.more (by decide) hright (.stop (by decide)))

theorem signs_joined_iff_strip :
    Parsed.ofTokens tokens = ⟨some tree.expr, []⟩ ∧
      let leaves := ((strip tokens).joined .standard [] tree.expr).root.leaves
      (leaves.filter (·.kind = .minusUnary)).map (·.path) = [some "term[1]", none] ∧
        ∃ s, Parsed.Traced tokens tree.expr s ∧
          (List.Forall₂ SignAgrees (s.uses Path.root) leaves ↔
            (s.uses Path.root).Pairwise fun a b => a.2 = .folded → ∀ p, b.2 ≠ .sign p) := by
  have hread : Parsed.ofTokens tokens = ⟨some tree.expr, []⟩ := by decide +kernel
  refine ⟨hread, ?_, signs_joined_iff (strip tokens) (by decide +kernel) hread []⟩
  decide +kernel

/-- The first sign is part of a numeral, and it is given the path of the second. -/
theorem not_forall_signs_joined :
    ¬ ∀ (ts : List Token) (e : Expr) (row : Row ts) (container : Address),
      (∀ u ∈ ts, u.isGlyph = true) → Parsed.ofTokens ts = ⟨some e, []⟩ →
      ∀ s, Parsed.Traced ts e s →
        List.Forall₂ SignAgrees (s.uses Path.root)
          (row.joined .standard container e).root.leaves := by
  intro hall
  have htokens : ∀ u ∈ tokens, u.isGlyph = true := by decide +kernel
  have hread : Parsed.ofTokens tokens = ⟨some tree.expr, []⟩ := by decide +kernel
  have hagree := hall tokens tree.expr (strip tokens) [] htokens hread tree builds_tree.traced
  obtain ⟨-, -, hsigns⟩ := (strip tokens).leaves_joined builds_tree.traced htokens
    standard_columnOverlap standard_minusOverlap []
  have huses : tree.uses Path.root =
      (minus, .folded) :: (one, .numeral "term[0]") :: (plus, .operation "root") ::
        (minus, .sign "term[1]") :: (tree.uses Path.root).drop 4 := by
    decide +kernel
  have hpairwise := hsigns.1 hagree
  rw [huses] at hpairwise
  exact (List.pairwise_cons.1 hpairwise).1 (minus, .sign "term[1]") (by simp) rfl _ rfl

end SignedSum

end Row
end FormulaMap
