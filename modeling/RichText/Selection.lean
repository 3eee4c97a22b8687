/-!
Selections: a pair of character offsets, from where the selection was begun to where it ends now.
-/

namespace RichText

structure Selection where
  anchor : Nat
  focus : Nat
  deriving DecidableEq, Repr

namespace Selection

def caret (offset : Nat) : Selection := ⟨offset, offset⟩

def start (s : Selection) : Nat := min s.anchor s.focus

def stop (s : Selection) : Nat := max s.anchor s.focus

def length (s : Selection) : Nat := s.stop - s.start

def isCaret (s : Selection) : Bool := s.anchor == s.focus

/-- The focus comes before the anchor. -/
def isBackward (s : Selection) : Bool := s.focus < s.anchor

/-- The same range, its smaller offset first. -/
def ordered (s : Selection) : Selection := ⟨s.start, s.stop⟩

/-- Both ends moved into a text of the given length. -/
def clamp (s : Selection) (limit : Nat) : Selection := ⟨min s.anchor limit, min s.focus limit⟩

@[simp] theorem start_caret (n : Nat) : (caret n).start = n := Nat.min_self n
@[simp] theorem stop_caret (n : Nat) : (caret n).stop = n := Nat.max_self n
@[simp] theorem isCaret_caret (n : Nat) : (caret n).isCaret = true := by simp [isCaret, caret]

theorem start_le_stop (s : Selection) : s.start ≤ s.stop := by
  simp only [start, stop]; omega

theorem isCaret_iff {s : Selection} : s.isCaret = true ↔ s.start = s.stop := by
  simp only [isCaret, beq_iff_eq, start, stop]; omega

theorem clamp_stop_le (s : Selection) (limit : Nat) : (s.clamp limit).stop ≤ limit := by
  simp only [clamp, stop]; omega

theorem clamp_of_stop_le {s : Selection} {limit : Nat} (h : s.stop ≤ limit) : s.clamp limit = s := by
  have hends := Nat.max_le.1 h
  rw [clamp, Nat.min_eq_left hends.1, Nat.min_eq_left hends.2]

end Selection

end RichText
