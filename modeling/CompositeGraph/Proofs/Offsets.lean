/-
  OFFSETS are the other way of locations.

  The search for a location ends at the first character where the location is reached or its line is
  over, or else at the end of the text.  `Location.Ended` says this of an index, and the offset is
  the least index of which it holds.  That one equivalence takes the only induction along the
  search; what is said of offsets is read off it.

    1. ORDER.      Locations come by line, then by column.  Every character moves on.
    2. THE SEARCH. `offset_le_iff`: by which index the search has ended.
    3. LOCATIONS.  The line of an index counts the line feeds before it, the column adds up the
                   widths behind the last.
    4. INVERSION.  The location of an index has this index as its offset; offsets keep the order and
                   stay in the text.
-/
import CompositeGraph.Report
import Mathlib.Algebra.GroupWithZero.Nat
import Mathlib.Data.List.DropRight
import Mathlib.Data.Prod.Lex

namespace CompositeGraph.Location

variable {a b here : Location} {c : Char} {text rest : List Char} {i j : Nat}

/-! ## Order -/

/-- Locations in the order of a text: by line, and on one line by column. -/
instance lexicographic : Preorder Location := Preorder.lift fun a => toLex (a.line, a.column)

theorem le_iff : a ≤ b ↔ a.line < b.line ∨ a.line = b.line ∧ a.column ≤ b.column :=
  Prod.Lex.toLex_le_toLex

theorem lt_iff : a < b ↔ a.line < b.line ∨ a.line = b.line ∧ a.column < b.column :=
  Prod.Lex.toLex_lt_toLex

theorem line_le (h : a ≤ b) : a.line ≤ b.line := by
  rw [le_iff] at h
  omega

theorem width_pos (c : Char) : 0 < width c := by
  rw [width]
  split <;> omega

theorem after_of_eq (hc : c = '\n') (a : Location) : a.after c = ⟨a.line + 1, 0⟩ := if_pos hc

theorem after_of_ne (hc : c ≠ '\n') (a : Location) :
    a.after c = ⟨a.line, a.column + width c⟩ := if_neg hc

theorem lt_after (a : Location) (c : Char) : a < a.after c := by
  rw [lt_iff]
  by_cases hc : c = '\n'
  · rw [after_of_eq hc]
    exact .inl (Nat.lt_succ_self _)
  · rw [after_of_ne hc]
    exact .inr ⟨rfl, Nat.lt_add_of_pos_right (width_pos c)⟩

theorem le_foldl_after (a : Location) (text : List Char) : a ≤ text.foldl after a := by
  induction text generalizing a with
  | nil => exact le_rfl
  | cons c rest ih => exact (lt_after a c).le.trans (ih (a.after c))

/-! ## The search -/

/-- A search through a text that begins at one location, for another one, has ended by an index: the
    text has, or the location is reached there, or its line is over. -/
def Ended (a here : Location) (text : List Char) (i : Nat) : Prop :=
  text.length ≤ i ∨ a ≤ (text.take i).foldl after here ∨
    a.line = ((text.take i).foldl after here).line ∧ text[i]? = some '\n'

theorem ended_cons_zero : Ended a here (c :: rest) 0 ↔ a ≤ here ∨ a.line = here.line ∧
    c = '\n' := by simp [Ended]

theorem ended_cons_succ : Ended a here (c :: rest) (i + 1) ↔
    Ended a (here.after c) rest i := by simp [Ended]

/-- What is reached is reached everywhere behind. -/
theorem ended_of_le (h : a ≤ here) (text : List Char) (i : Nat) : Ended a here text i :=
  .inr (.inl (h.trans (le_foldl_after here _)))

/-- A search that has ended at its first character stays so. -/
theorem Ended.of_zero (h : Ended a here (c :: rest) 0) (i : Nat) : Ended a here (c :: rest) i := by
  cases i with
  | zero => exact h
  | succ i =>
    refine ended_cons_succ.mpr (ended_of_le ?_ rest i)
    rcases ended_cons_zero.mp h with hreached | ⟨hline, hfeed⟩
    · exact hreached.trans (lt_after here c).le
    · rw [after_of_eq hfeed, le_iff]
      exact .inl (hline ▸ Nat.lt_succ_self _)

/-- The search for an earlier location ends no later. -/
theorem Ended.of_le (hb : Ended b here text i) (h : a ≤ b) : Ended a here text i := by
  obtain hover | hreached | ⟨hline, hfeed⟩ := hb
  · exact .inl hover
  · exact .inr (.inl (h.trans hreached))
  · rcases le_iff.mp h with hlt | ⟨hsame, -⟩
    · exact .inr (.inl (le_iff.mpr (.inl (hline ▸ hlt))))
    · exact .inr (.inr ⟨hsame.trans hline, hfeed⟩)

/-- A search that ends at its first character counts nothing. -/
theorem offsetFrom_of_ended (hline : here.line ≤ a.line) (h : Ended a here (c :: rest) 0) :
    offsetFrom a here.line here.column (c :: rest) = 0 := by
  rw [ended_cons_zero, le_iff] at h
  rw [offsetFrom]
  grind

/-- A search that does not counts the character, and goes on behind it on no later
    line than it has to find. -/
theorem offsetFrom_of_not_ended (hline : here.line ≤ a.line) (h : ¬Ended a here (c :: rest) 0) :
    offsetFrom a here.line here.column (c :: rest) =
        offsetFrom a (here.after c).line (here.after c).column rest + 1 ∧
      (here.after c).line ≤ a.line := by
  rw [ended_cons_zero, le_iff] at h
  rw [offsetFrom]
  by_cases hc : c = '\n'
  · rw [after_of_eq hc]
    grind
  · rw [after_of_ne hc]
    grind

/-- The search has counted up to an index at most, if it has ended by then. -/
theorem offsetFrom_le_iff (hline : here.line ≤ a.line) :
    offsetFrom a here.line here.column text ≤ i ↔ Ended a here text i := by
  induction text generalizing here i with
  | nil => exact iff_of_true (Nat.zero_le i) (.inl (Nat.zero_le i))
  | cons c rest ih =>
    by_cases hended : Ended a here (c :: rest) 0
    · rw [offsetFrom_of_ended hline hended]
      exact iff_of_true (Nat.zero_le i) (hended.of_zero i)
    · obtain ⟨hcount, hafter⟩ := offsetFrom_of_not_ended hline hended
      rw [hcount]
      cases i with
      | zero => exact iff_of_false (Nat.not_succ_le_zero _) hended
      | succ i => rw [Nat.add_le_add_iff_right, ih hafter, ended_cons_succ]

/-- The offset of a location is the least index by which the search has ended. -/
theorem offset_le_iff : offset text a ≤ i ↔ Ended a {} text i := by
  have hline : ({} : Location).line ≤ a.line := Nat.zero_le a.line
  exact offsetFrom_le_iff hline

theorem offset_le_length (text : List Char) (a : Location) : offset text a ≤ text.length :=
  offset_le_iff.mpr (.inl le_rfl)

theorem offset_mono (text : List Char) : Monotone (offset text) := by
  intro a b h
  have hended : Ended b {} text (offset text b) := offset_le_iff.mp le_rfl
  exact offset_le_iff.mpr (hended.of_le h)

/-! ## Locations -/

theorem ofOffset_succ (hc : text[i]? = some c) :
    ofOffset text (i + 1) = (ofOffset text i).after c := by
  rw [ofOffset, List.take_add_one, hc, List.foldl_append]
  rfl

theorem ofOffset_le (text : List Char) (h : i ≤ j) : ofOffset text i ≤ ofOffset text j := by
  obtain ⟨k, rfl⟩ := Nat.exists_eq_add_of_le h
  rw [ofOffset, ofOffset, List.take_add, List.foldl_append]
  exact le_foldl_after _ _

/-- Where a text ends: on the line of as many line feeds, behind what follows the last of them. -/
theorem foldl_after_eq (text : List Char) :
    text.foldl after {} = ⟨text.count '\n', ((text.rtakeWhile (· != '\n')).map width).sum⟩ := by
  induction text using List.reverseRecOn with
  | nil => rfl
  | append_singleton before c ih =>
    rw [List.foldl_concat, ih, List.count_append, List.rtakeWhile_concat]
    by_cases hc : c = '\n'
    · rw [after_of_eq hc]
      simp [hc]
    · rw [after_of_ne hc]
      simp [hc]

theorem ofOffset_eq (text : List Char) (i : Nat) :
    ofOffset text i = ⟨(text.take i).count '\n',
      (((text.take i).rtakeWhile (· != '\n')).map width).sum⟩ :=
  foldl_after_eq (text.take i)

/-! ## Inversion -/

/-- The search for the location of an index has not ended before. -/
theorem not_ended_ofOffset (hi : i ≤ text.length) (hj : j < i) :
    ¬Ended (ofOffset text i) {} text j := by
  obtain ⟨c, hc⟩ : ∃ c, text[j]? = some c := ⟨_, List.getElem?_eq_getElem (by omega)⟩
  have hbehind : (ofOffset text j).after c ≤ ofOffset text i := by
    rw [← ofOffset_succ hc]
    exact ofOffset_le text hj
  rintro (hover | hreached | ⟨hline, hfeed⟩)
  · omega
  · exact lt_irrefl _ ((lt_after _ c).trans_le (hbehind.trans hreached))
  · -- the character is a line feed, so what is behind it is on another line
    rw [after_of_eq (Option.some.inj (hc.symm.trans hfeed))] at hbehind
    have hlater : (ofOffset text j).line + 1 ≤ (ofOffset text i).line := line_le hbehind
    have hsame : (ofOffset text i).line = (ofOffset text j).line := hline
    omega

theorem offset_ofOffset (hi : i ≤ text.length) : offset text (ofOffset text i) = i := by
  refine le_antisymm (offset_le_iff.mpr (.inr (.inl le_rfl))) (Nat.le_of_not_lt fun hlt => ?_)
  exact not_ended_ofOffset hi hlt (offset_le_iff.mp le_rfl)

/-- Offsets undo locations, stay in the text and keep the order, and so what a report points at is
    in the text. -/
theorem offset_inverts_location (text : List Char) :
    (∀ i ≤ text.length,
        offset text ⟨(text.take i).count '\n',
          (((text.take i).rtakeWhile (· != '\n')).map width).sum⟩ = i) ∧
      (∀ a, offset text a ≤ text.length) ∧
      (∀ a b : Location, a.line < b.line ∨ a.line = b.line ∧ a.column ≤ b.column →
        offset text a ≤ offset text b) ∧
      ∀ a, (Report.span text a).1 = offset text a ∧
        (Report.span text a).1 ≤ (Report.span text a).2 ∧
        (Report.span text a).2 ≤ text.length := by
  refine ⟨fun i hi => ?_, offset_le_length text, fun a b h =>
    offset_mono text (le_iff.mpr h), fun a => ?_⟩
  · rw [← ofOffset_eq]
    exact offset_ofOffset hi
  · have hstart := offset_le_length text a
    refine ⟨rfl, Nat.le_max_right _ _, ?_⟩
    exact Nat.max_le.mpr ⟨Nat.min_le_right _ _, hstart⟩

/-- Line 1 is empty, line 2 begins with a tab and line 3 is the end.  Past the end of line 1 is its
    line feed, and inside the tab is behind it. -/
theorem offset_inverts_location_tab :
    offset "a\n\n\tb\n".toList ⟨2, 4⟩ = 4 ∧ offset "a\n\n\tb\n".toList ⟨3, 0⟩ = 6 ∧
      offset "a\n\n\tb\n".toList ⟨1, 7⟩ = 2 ∧ offset "a\n\n\tb\n".toList ⟨2, 1⟩ = 4 ∧
      offset "a\n\n\tb\n".toList ⟨1, 7⟩ ≤ offset "a\n\n\tb\n".toList ⟨2, 1⟩ := by
  obtain ⟨hinverse, -, hmono, -⟩ := offset_inverts_location "a\n\n\tb\n".toList
  exact ⟨hinverse 4 (by decide),
    hinverse 6 (by decide), by decide, by decide, hmono _ _ (by decide)⟩

end CompositeGraph.Location
