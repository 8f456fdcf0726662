import Mathlib.Data.List.Basic
import MxStar.Text.Control
import MxStar.Text.Style

/-!
# Lines of a text

A text is read as lines, which line breaks end.  Pieces without a line break can be printed
under each other and read back, and some of them can be deleted from the text without a
change to the others.
-/

namespace MxStar.Text

/-! ## Texts of one line -/

def IsLine (s : String) : Prop :=
  '\n' ∉ s.toList

instance (s : String) : Decidable (IsLine s) :=
  inferInstanceAs (Decidable ('\n' ∉ s.toList))

variable {s : String} {lines : List String}

@[simp]
theorem isLine_append : IsLine (s ++ t) ↔ IsLine s ∧ IsLine t := by
  simp [IsLine]

@[simp]
theorem isLine_toString : IsLine (toString s) ↔ IsLine s := Iff.rfl

theorem isLine_intercalate (h : IsLine separator) (hlist : ∀ s ∈ list, IsLine s) :
    IsLine (separator.intercalate list) := by
  simp only [IsLine, String.toList_intercalate]
  induction list with
  | nil => simp
  | cons s rest ih =>
    have hs := hlist s (.head _)
    have hrest := ih fun t ht => hlist t (.tail _ ht)
    cases rest with
    | nil => simpa [IsLine] using hs
    | cons t rest' =>
      rw [List.map_cons, List.map_cons, List.intercalate_cons_cons, List.mem_append,
        List.mem_append]
      exact fun hbreak => hbreak.elim (fun hbreak => hbreak.elim hs h) hrest

theorem IsLine.pushn (h : IsLine s) (hc : c ≠ '\n') (n : Nat) : IsLine (s.pushn c n) := by
  induction n with
  | zero => exact h
  | succ n ih =>
    change IsLine ((s.pushn c n).push c)
    rw [IsLine, String.toList_push, List.mem_append]
    exact fun hbreak => hbreak.elim ih fun hbreak => hc (List.mem_singleton.mp hbreak).symm

@[simp]
theorem isLine_toString_nat (n : Nat) : IsLine (toString n) := by
  intro hbreak
  rw [Nat.toString_eq_repr, Nat.repr, String.toList_ofList] at hbreak
  exact absurd (Nat.isDigit_of_mem_toDigits (by decide) (by decide) hbreak) (by decide)

@[simp]
theorem isLine_toString_int (z : Int) : IsLine (toString z) := by
  cases z with
  | ofNat n => exact isLine_toString_nat n
  | negSucc n => exact isLine_append.mpr ⟨by decide, isLine_toString_nat (n + 1)⟩

theorem mem_reopen {color : Color} (hd : d ∈ color.reopen cs) :
    d ∈ cs ∨ d ∈ (colorReset ++ color.opening).toList := by
  induction cs using Color.reopen.induct with
  | case1 rest ih =>
    rw [Color.reopen, List.mem_append] at hd
    rcases hd with hd | hd
    · exact .inr hd
    · exact (ih hd).imp_left fun hd => by simp [hd]
  | case2 c rest hreset ih =>
    rw [Color.reopen] at hd
    · rcases List.mem_cons.mp hd with rfl | hd
      · exact .inl (.head _)
      · exact (ih hd).imp_left fun hd => .tail _ hd
    · exact hreset
  | case3 => simp [Color.reopen] at hd

theorem IsLine.paint (h : IsLine piece) (style : Style) (color : Color) :
    IsLine (style.paint color piece) := by
  have hopening : IsLine color.opening := by cases color <;> decide
  have hreset : IsLine colorReset := by decide
  cases style with
  | plain => exact h
  | colored =>
    simp only [Style.paint, isLine_append, hopening, hreset, true_and, and_true]
    intro hbreak
    rw [String.toList_ofList] at hbreak
    rcases mem_reopen hbreak with hbreak | hbreak
    · exact h hbreak
    · exact (isLine_append.mpr ⟨hreset, hopening⟩) hbreak

theorem IsLine.withoutControls (h : IsLine s) : IsLine (withoutControls s) := by
  intro hbreak
  rcases mem_withoutControls hbreak with hbreak | hbreak
  · exact h hbreak
  · exact absurd hbreak (by decide)

/-! ## Lines under each other -/

/-- Each line and its break. -/
def printed (lines : List String) : String :=
  String.join (lines.map (· ++ "\n"))

/-- The lines of a text, the last one being what follows the last break. -/
def linesOf (s : String) : List String :=
  (s.toList.splitOn '\n').map String.ofList

def deleteLines (drop : String → Bool) (s : String) : String :=
  "\n".intercalate ((linesOf s).filter (!drop ·))

def deleteLinesAt (drop : Nat → Bool) (s : String) : String :=
  "\n".intercalate (((linesOf s).zipIdx.filter fun x => !drop x.2).map Prod.fst)

theorem printed_eq_intercalate (lines : List String) :
    printed lines = "\n".intercalate (lines ++ [""]) := by
  rw [← String.toList_inj, printed, String.toList_join, String.toList_intercalate, List.flatMap_map]
  induction lines with
  | nil => rfl
  | cons s rest ih =>
    rw [List.flatMap_cons, ih, String.toList_append, List.cons_append, List.map_cons,
      List.intercalate_cons_of_ne_nil (by simp)]

variable (h : ∀ s ∈ lines, IsLine s)
include h

theorem linesOf_printed : linesOf (printed lines) = lines ++ [""] := by
  have hbreaks : ∀ l ∈ (lines ++ [""]).map String.toList, '\n' ∉ l := by
    intro l hl
    obtain ⟨s, hs, rfl⟩ := List.mem_map.mp hl
    rcases List.mem_append.mp hs with hs | hs
    · exact h s hs
    · simp [List.mem_singleton.mp hs]
  rw [linesOf, printed_eq_intercalate, String.toList_intercalate,
    show "\n".toList = ['\n'] from rfl, List.splitOn_intercalate _ hbreaks (by simp), List.map_map]
  exact List.map_id'' (fun s => String.ofList_toList) _

theorem deleteLines_printed {drop : String → Bool} (hdrop : drop "" = false) :
    deleteLines drop (printed lines) = printed (lines.filter (!drop ·)) := by
  rw [deleteLines, linesOf_printed h, printed_eq_intercalate, List.filter_append]
  simp [hdrop]

theorem deleteLinesAt_printed {drop : Nat → Bool} (hdrop : drop lines.length = false) :
    deleteLinesAt drop (printed lines) =
      printed ((lines.zipIdx.filter fun x => !drop x.2).map Prod.fst) := by
  rw [deleteLinesAt, linesOf_printed h, printed_eq_intercalate, List.zipIdx_append,
    List.filter_append, List.map_append]
  simp [hdrop]

end MxStar.Text
