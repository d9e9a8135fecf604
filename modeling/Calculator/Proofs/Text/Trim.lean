import Calculator.Text.Blank
import Mathlib.Data.List.Basic
import Mathlib.Data.List.TakeWhile

/-!
# What is trimmed

White space at the ends of a text is taken off, and nothing else is.

* `Text.exists_trim`: a text is what is left of it between white space
* `Text.trim_append`: white space around a text does not show behind the trimming
-/

namespace Calculator.Text

theorem trimStart_eq_self {cs : List Char} (h : ∀ c ∈ cs.head?, isBlank c = false) :
    trimStart cs = cs := by
  cases cs with
  | nil => rfl
  | cons c cs => exact List.dropWhile_cons_of_neg (by simp [h c rfl])

theorem trimStart_append {front : List Char} (h : ∀ c ∈ front, isBlank c = true) (cs : List Char) :
    trimStart (front ++ cs) = trimStart cs :=
  List.dropWhile_append_of_pos h

theorem trim_cons_of_isBlank {c : Char} (h : isBlank c = true) (cs : List Char) :
    trim (c :: cs) = trim cs := by
  have hstart : trimStart (c :: cs) = trimStart cs := List.dropWhile_cons_of_pos h
  rw [trim, hstart, trim]

/-- A text with nothing blank at its ends is not shortened. -/
theorem trim_eq_self {cs : List Char} (hhead : ∀ c ∈ cs.head?, isBlank c = false)
    (hlast : ∀ c ∈ cs.getLast?, isBlank c = false) : trim cs = cs := by
  rw [← List.head?_reverse] at hlast
  rw [trim, trimStart_eq_self hhead, trimStart_eq_self hlast, List.reverse_reverse]

theorem trim_eq_self_of_forall_mem {cs : List Char} (h : ∀ c ∈ cs, isBlank c = false) :
    trim cs = cs :=
  trim_eq_self (fun c hc => h c (List.mem_of_mem_head? hc))
    fun c hc => h c (List.mem_of_mem_getLast? hc)

/-- Nothing is left of the white space around a text without white space. -/
theorem trim_append {front cs back : List Char} (hfront : ∀ c ∈ front, isBlank c = true)
    (hback : ∀ c ∈ back, isBlank c = true) (hcs : ∀ c ∈ cs, isBlank c = false) :
    trim (front ++ (cs ++ back)) = cs := by
  unfold trim
  rw [trimStart_append hfront]
  by_cases hnil : cs = []
  · have hall : trimStart back = [] := List.dropWhile_eq_nil_iff.mpr hback
    rw [hnil, List.nil_append, hall]
    simp [trimStart]
  · have hhead : ∀ c ∈ (cs ++ back).head?, isBlank c = false := by
      intro c hc
      rw [List.head?_append_of_ne_nil _ hnil] at hc
      exact hcs c (List.mem_of_mem_head? hc)
    have hlast : ∀ c ∈ cs.reverse.head?, isBlank c = false := by
      intro c hc
      exact hcs c (List.mem_reverse.mp (List.mem_of_mem_head? hc))
    have hback' : ∀ c ∈ back.reverse, isBlank c = true := by simpa using hback
    rw [trimStart_eq_self hhead, List.reverse_append, trimStart_append hback',
      trimStart_eq_self hlast, List.reverse_reverse]

/-- What is trimmed from the ends of a text is white space. -/
theorem exists_trim (cs : List Char) :
    ∃ front back, cs = front ++ (trim cs ++ back) ∧ (∀ b ∈ front, isBlank b = true) ∧
      ∀ b ∈ back, isBlank b = true := by
  have hblank : ∀ ds : List Char, ∀ b ∈ ds.takeWhile isBlank, isBlank b = true :=
    fun _ _ => List.mem_takeWhile_imp
  refine ⟨cs.takeWhile isBlank, ((trimStart cs).reverse.takeWhile isBlank).reverse, ?_,
    hblank cs, fun b hb => hblank _ b (List.mem_reverse.mp hb)⟩
  rw [trim, ← List.reverse_append]
  show cs = _ ++ (List.takeWhile isBlank (trimStart cs).reverse ++
    List.dropWhile isBlank (trimStart cs).reverse).reverse
  rw [List.takeWhile_append_dropWhile, List.reverse_reverse]
  exact List.takeWhile_append_dropWhile.symm

end Calculator.Text
