/-!
# Blanks

The white space of an input line. An expression is read with every blank removed, a keyword with
the blanks around it removed, and a number with its margins removed.
-/

namespace Reckoner.Text

/-- Unicode white space, together with the four separators U+001C to U+001F. -/
def isBlank (c : Char) : Bool :=
  let n := c.toNat
  (0x09 ≤ n && n ≤ 0x0d) || (0x1c ≤ n && n ≤ 0x20) || n == 0x85 || n == 0xa0 || n == 0x1680 ||
    (0x2000 ≤ n && n ≤ 0x200a) || n == 0x2028 || n == 0x2029 || n == 0x202f || n == 0x205f ||
    n == 0x3000

/-- A blank that may stand before or after a number; the four separators may not. -/
def isMargin (c : Char) : Bool :=
  isBlank c && !(0x1c ≤ c.toNat && c.toNat ≤ 0x1f)

/-- Drops the characters of a class at both ends. -/
def trimBy (skip : Char → Bool) (s : List Char) : List Char :=
  ((s.dropWhile skip).reverse.dropWhile skip).reverse

def trim (s : List Char) : List Char := trimBy isBlank s

/-- The characters that are left when every blank is removed. -/
def removeBlanks (s : List Char) : List Char := s.filter (!isBlank ·)

/-- ASCII letters in lower case. No other character turns into a letter of a command word, so this
is all that comparing a line with the command words asks for. -/
def lowercase (s : List Char) : List Char := s.map Char.toLower

/-! ## Laws -/

theorem isBlank_of_isMargin {c : Char} (h : isMargin c = true) : isBlank c = true := by
  simp only [isMargin, Bool.and_eq_true] at h
  exact h.1

/-- Nothing is dropped where no character is of the class. -/
theorem trimBy_eq_self {skip : Char → Bool} {s : List Char} (h : ∀ c ∈ s, skip c = false) :
    trimBy skip s = s := by
  have hdrop : ∀ {l : List Char}, (∀ c ∈ l, skip c = false) → l.dropWhile skip = l := by
    intro l hl
    cases l with
    | nil => rfl
    | cons c rest => exact List.dropWhile_cons_of_neg (by simp [hl c List.mem_cons_self])
  rw [trimBy, hdrop h, hdrop fun c hc => h c (List.mem_reverse.1 hc), List.reverse_reverse]

@[simp] theorem removeBlanks_nil : removeBlanks [] = [] := rfl

@[simp] theorem removeBlanks_append (s t : List Char) :
    removeBlanks (s ++ t) = removeBlanks s ++ removeBlanks t :=
  List.filter_append ..

theorem isBlank_of_mem_removeBlanks {c : Char} {s : List Char} (h : c ∈ removeBlanks s) :
    isBlank c = false := by
  simpa using (List.mem_filter.1 h).2

theorem removeBlanks_eq_self {s : List Char} (h : ∀ c ∈ s, isBlank c = false) :
    removeBlanks s = s :=
  List.filter_eq_self.2 fun c hc => by simp [h c hc]

end Reckoner.Text
