import Mathlib.Data.List.Basic
import Mathlib.Tactic

/-! Framed byte strings: the length in eight bytes, the lowest first, and then the bytes. A
sequence of frames can be cut anywhere. The frames that end before the cut are read back, and
what is left of the next one is recognised as incomplete. -/
namespace Framing

section Numbers

def encodeLE : ℕ → ℕ → List UInt8
  | 0, _ => []
  | width + 1, n => UInt8.ofNat (n % 256) :: encodeLE width (n / 256)

def decodeLE : List UInt8 → ℕ
  | [] => 0
  | b :: rest => b.toNat + 256 * decodeLE rest

@[simp] theorem length_encodeLE (width n : ℕ) : (encodeLE width n).length = width := by
  induction width generalizing n with
  | zero => rfl
  | succ width ih => rw [encodeLE, List.length_cons, ih]

theorem decodeLE_encodeLE (width n : ℕ) (fits : n < 256 ^ width) :
    decodeLE (encodeLE width n) = n := by
  induction width generalizing n with
  | zero =>
      rw [pow_zero] at fits
      rw [encodeLE, decodeLE, Nat.lt_one_iff.mp fits]
  | succ width ih =>
      have digit : (UInt8.ofNat (n % 256)).toNat = n % 256 :=
        UInt8.toNat_ofNat_of_lt' (Nat.mod_lt n (by decide))
      have higher : n / 256 < 256 ^ width := by
        rw [pow_succ] at fits
        exact Nat.div_lt_of_lt_mul (by rw [mul_comm]; exact fits)
      rw [encodeLE, decodeLE, digit, ih (n / 256) higher]
      exact Nat.mod_add_div n 256

end Numbers

section Frames

def frame (item : List UInt8) : List UInt8 := encodeLE 8 item.length ++ item

@[simp] theorem length_frame (item : List UInt8) : (frame item).length = 8 + item.length := by
  rw [frame, List.length_append, length_encodeLE]

/-- The first frame and what follows, or `none` if the string ends before the frame does. -/
def readFrame (string : List UInt8) : Option (List UInt8 × List UInt8) :=
  if string.length < 8 then none
  else if (string.drop 8).length < decodeLE (string.take 8) then none
  else some ((string.drop 8).take (decodeLE (string.take 8)),
    (string.drop 8).drop (decodeLE (string.take 8)))

variable {item : List UInt8}

theorem take_frame_append (item rest : List UInt8) :
    (frame item ++ rest).take 8 = encodeLE 8 item.length := by
  rw [frame, List.append_assoc]
  exact List.take_left' (length_encodeLE 8 item.length)

theorem drop_frame_append (item rest : List UInt8) :
    (frame item ++ rest).drop 8 = item ++ rest := by
  rw [frame, List.append_assoc]
  exact List.drop_left' (length_encodeLE 8 item.length)

theorem readFrame_append (fits : item.length < 2 ^ 64) (rest : List UInt8) :
    readFrame (frame item ++ rest) = some (item, rest) := by
  have long : ¬(frame item ++ rest).length < 8 := by
    rw [List.length_append, length_frame]
    omega
  have whole : ¬(item ++ rest).length < item.length := by
    rw [List.length_append]
    omega
  rw [readFrame, if_neg long, drop_frame_append, take_frame_append,
    decodeLE_encodeLE 8 item.length fits, if_neg whole, List.take_left, List.drop_left]

theorem take_take_frame {n : ℕ} (number : 8 ≤ n) :
    ((frame item).take n).take 8 = encodeLE 8 item.length := by
  rw [List.take_take, min_eq_left number, ← List.append_nil (frame item)]
  exact take_frame_append item []

theorem length_drop_take_frame {n : ℕ} (number : 8 ≤ n) (cut : n < (frame item).length) :
    (((frame item).take n).drop 8).length < item.length := by
  rw [length_frame] at cut
  rw [List.length_drop, List.length_take, length_frame]
  omega

theorem readFrame_take (fits : item.length < 2 ^ 64) {n : ℕ} (cut : n < (frame item).length) :
    readFrame ((frame item).take n) = none := by
  rw [readFrame]
  by_cases short : n < 8
  · exact if_pos (lt_of_le_of_lt (List.length_take_le n (frame item)) short)
  · have number : 8 ≤ n := not_lt.mp short
    rw [take_take_frame number, decodeLE_encodeLE 8 item.length fits,
      if_pos (length_drop_take_frame number cut), ite_self]

end Frames

section Scan

/-- The frames at the front of a string, and what is left. Every frame takes bytes, so that the
length of the string is enough fuel. -/
def scan : ℕ → List UInt8 → List (List UInt8) × List UInt8
  | 0, string => ([], string)
  | fuel + 1, string =>
      match readFrame string with
      | none => ([], string)
      | some (item, rest) => (item :: (scan fuel rest).1, (scan fuel rest).2)

/-- The elements at the front whose sizes add up to at most `n`. -/
def fitting {α : Type*} (size : α → ℕ) : ℕ → List α → List α
  | _, [] => []
  | n, a :: rest => if size a ≤ n then a :: fitting size (n - size a) rest else []

theorem fitting_map {α β : Type*} (size : β → ℕ) (f : α → β) (n : ℕ) (as : List α) :
    fitting size n (as.map f) = (fitting (fun a => size (f a)) n as).map f := by
  induction as generalizing n with
  | nil => rfl
  | cons a as ih =>
      rw [List.map_cons, fitting, fitting, ih]
      split
      · rfl
      · rfl

theorem fitting_subset {α : Type*} (size : α → ℕ) (n : ℕ) (as : List α) :
    fitting size n as ⊆ as := by
  induction as generalizing n with
  | nil => exact List.Subset.refl _
  | cons a as ih =>
      rw [fitting]
      split
      · exact List.cons_subset_cons a (ih _)
      · exact List.nil_subset _

def frames (items : List (List UInt8)) : List UInt8 := items.flatMap frame

theorem frames_cons (item : List UInt8) (items : List (List UInt8)) :
    frames (item :: items) = frame item ++ frames items :=
  List.flatMap_cons

theorem frames_singleton (item : List UInt8) : frames [item] = frame item :=
  List.flatMap_singleton frame item

theorem frames_append (items others : List (List UInt8)) :
    frames (items ++ others) = frames items ++ frames others :=
  List.flatMap_append

theorem length_le_length_frames (items : List (List UInt8)) :
    items.length ≤ (frames items).length := by
  induction items with
  | nil => exact le_rfl
  | cons item items ih =>
      rw [frames_cons, List.length_append, List.length_cons, length_frame]
      omega

theorem length_frame_le_of_mem {item : List UInt8} {items : List (List UInt8)}
    (listed : item ∈ items) : (frame item).length ≤ (frames items).length := by
  obtain ⟨before, behind, rfl⟩ := List.append_of_mem listed
  rw [frames_append, frames_cons, List.length_append, List.length_append]
  omega

theorem scan_of_readFrame_none {string : List UInt8} (incomplete : readFrame string = none)
    (fuel : ℕ) : scan fuel string = ([], string) := by
  cases fuel with
  | zero => rfl
  | succ fuel => rw [scan, incomplete]

variable {items : List (List UInt8)} {rest : List UInt8}

theorem scan_frames_append (fits : ∀ item ∈ items, item.length < 2 ^ 64)
    (incomplete : readFrame rest = none) {fuel : ℕ}
    (enough : (frames items ++ rest).length ≤ fuel) :
    scan fuel (frames items ++ rest) = (items, rest) := by
  induction items generalizing fuel with
  | nil => exact scan_of_readFrame_none incomplete fuel
  | cons item items ih =>
      rw [frames_cons, List.append_assoc, List.length_append, length_frame] at enough
      obtain ⟨fuel, rfl⟩ : ∃ less, fuel = less + 1 := ⟨fuel - 1, by omega⟩
      have behind : scan fuel (frames items ++ rest) = (items, rest) :=
        ih (fun other listed => fits other (List.mem_cons_of_mem item listed)) (by omega)
      rw [frames_cons, List.append_assoc, scan,
        readFrame_append (fits item List.mem_cons_self)]
      simp only [behind]

/-- A sequence of frames that is cut is the frames that end before the cut, and a rest that has
no frame. -/
theorem exists_take_frames (fits : ∀ item ∈ items, item.length < 2 ^ 64) (n : ℕ) :
    ∃ rest, readFrame rest = none ∧
      (frames items).take n =
        frames (fitting (fun item => (frame item).length) n items) ++ rest := by
  induction items generalizing n with
  | nil => exact ⟨[], rfl, List.take_nil⟩
  | cons item items ih =>
      rw [frames_cons, fitting]
      by_cases whole : (frame item).length ≤ n
      · obtain ⟨rest, incomplete, cut⟩ :=
          ih (fun other listed => fits other (List.mem_cons_of_mem item listed))
            (n - (frame item).length)
        refine ⟨rest, incomplete, ?_⟩
        rw [if_pos whole, List.take_append, List.take_of_length_le whole, cut, frames_cons,
          List.append_assoc]
      · refine ⟨(frame item).take n,
          readFrame_take (fits item List.mem_cons_self) (not_le.mp whole), ?_⟩
        rw [if_neg whole, List.take_append_of_le_length (not_le.mp whole).le]
        rfl

end Scan
end Framing
