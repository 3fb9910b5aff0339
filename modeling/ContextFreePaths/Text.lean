/-!
Classes of characters, after the Unicode properties White_Space and Uppercase as of Unicode 17, and
the ways to cut a text at characters.
-/

namespace ContextFreePaths.Text

def blankRanges : List (Nat × Nat) :=
  [(0x09, 0x0D), (0x20, 0x20), (0x85, 0x85), (0xA0, 0xA0), (0x1680, 0x1680), (0x2000, 0x200A),
   (0x2028, 0x2029), (0x202F, 0x202F), (0x205F, 0x205F), (0x3000, 0x3000)]

def isBlank (c : Char) : Bool :=
  blankRanges.any (fun r => r.1 ≤ c.toNat && c.toNat ≤ r.2)

def solidRanges : List (Nat × Nat) :=
   [(0x41, 0x5A), (0xC0, 0xD6), (0xD8, 0xDE), (0x181, 0x182), (0x18A, 0x18B), (0x18E, 0x191),
    (0x193, 0x194), (0x196, 0x198), (0x19C, 0x19D), (0x19F, 0x1A0), (0x1B2, 0x1B3), (0x1B8, 0x1B8),
    (0x1BC, 0x1BC), (0x1C4, 0x1C4), (0x1C7, 0x1C7), (0x1CA, 0x1CA), (0x1F1, 0x1F1), (0x1F7, 0x1F8),
    (0x23A, 0x23B), (0x23D, 0x23E), (0x244, 0x246), (0x376, 0x376), (0x37F, 0x37F), (0x389, 0x38A),
    (0x392, 0x3A1), (0x3A3, 0x3AB), (0x3CF, 0x3CF), (0x3D2, 0x3D4), (0x3F4, 0x3F4), (0x3FA, 0x3FA),
    (0x3FD, 0x42F), (0x531, 0x556), (0x10A0, 0x10C5), (0x10C7, 0x10C7), (0x10CD, 0x10CD),
    (0x13A0, 0x13F5), (0x1C89, 0x1C89), (0x1C90, 0x1CBA), (0x1CBD, 0x1CBF), (0x1F08, 0x1F0F),
    (0x1F18, 0x1F1D), (0x1F28, 0x1F2F), (0x1F38, 0x1F3F), (0x1F48, 0x1F4D), (0x1F68, 0x1F6F),
    (0x1FB8, 0x1FBB), (0x1FC8, 0x1FCB), (0x1FD8, 0x1FDB), (0x1FE8, 0x1FEC), (0x1FF8, 0x1FFB),
    (0x2102, 0x2102), (0x2107, 0x2107), (0x210B, 0x210D), (0x2110, 0x2112), (0x2115, 0x2115),
    (0x2119, 0x211D), (0x212B, 0x212D), (0x2130, 0x2133), (0x213E, 0x213F), (0x2145, 0x2145),
    (0x2160, 0x216F), (0x2183, 0x2183), (0x24B6, 0x24CF), (0x2C00, 0x2C2F), (0x2C63, 0x2C64),
    (0x2C6E, 0x2C70), (0x2C72, 0x2C72), (0x2C75, 0x2C75), (0x2C7E, 0x2C80), (0x2CF2, 0x2CF2),
    (0xA7AB, 0xA7AE), (0xA7B0, 0xA7B4), (0xA7C5, 0xA7C7), (0xA7F5, 0xA7F5), (0xFF21, 0xFF3A),
    (0x10400, 0x10427), (0x104B0, 0x104D3), (0x10570, 0x1057A), (0x1057C, 0x1058A),
    (0x1058C, 0x10592), (0x10594, 0x10595), (0x10C80, 0x10CB2), (0x10D50, 0x10D65),
    (0x118A0, 0x118BF), (0x16E40, 0x16E5F), (0x16EA0, 0x16EB8), (0x1D400, 0x1D419),
    (0x1D434, 0x1D44D), (0x1D468, 0x1D481), (0x1D49F, 0x1D49F), (0x1D4A2, 0x1D4A2),
    (0x1D4A5, 0x1D4A6), (0x1D4A9, 0x1D4AC), (0x1D4AE, 0x1D4B5), (0x1D4D0, 0x1D4E9),
    (0x1D504, 0x1D505), (0x1D507, 0x1D50A), (0x1D50D, 0x1D514), (0x1D516, 0x1D51C),
    (0x1D538, 0x1D539), (0x1D53B, 0x1D53E), (0x1D540, 0x1D544), (0x1D546, 0x1D546),
    (0x1D54A, 0x1D550), (0x1D56C, 0x1D585), (0x1D5A0, 0x1D5B9), (0x1D5D4, 0x1D5ED),
    (0x1D608, 0x1D621), (0x1D63C, 0x1D655), (0x1D670, 0x1D689), (0x1D6A8, 0x1D6C0),
    (0x1D6E2, 0x1D6FA), (0x1D71C, 0x1D734), (0x1D756, 0x1D76E), (0x1D790, 0x1D7A8),
    (0x1D7CA, 0x1D7CA), (0x1E900, 0x1E921), (0x1F130, 0x1F149), (0x1F150, 0x1F169),
    (0x1F170, 0x1F189)]

/-- Closed ranges of which the first code point and every second one after it are uppercase. -/
def alternatingRanges : List (Nat × Nat) :=
   [(0x100, 0x136), (0x139, 0x147), (0x14A, 0x178), (0x179, 0x17D), (0x184, 0x186), (0x187, 0x189),
    (0x1A2, 0x1A6), (0x1A7, 0x1A9), (0x1AC, 0x1AE), (0x1AF, 0x1B1), (0x1B5, 0x1B7), (0x1CD, 0x1DB),
    (0x1DE, 0x1EE), (0x1F4, 0x1F6), (0x1FA, 0x232), (0x241, 0x243), (0x248, 0x24E), (0x370, 0x372),
    (0x386, 0x388), (0x38C, 0x38E), (0x38F, 0x391), (0x3D8, 0x3EE), (0x3F7, 0x3F9), (0x460, 0x480),
    (0x48A, 0x4C0), (0x4C1, 0x4CD), (0x4D0, 0x52E), (0x1E00, 0x1E94), (0x1E9E, 0x1EFE),
    (0x1F59, 0x1F5F), (0x2124, 0x212A), (0x2C60, 0x2C62), (0x2C67, 0x2C6D), (0x2C82, 0x2CE2),
    (0x2CEB, 0x2CED), (0xA640, 0xA66C), (0xA680, 0xA69A), (0xA722, 0xA72E), (0xA732, 0xA76E),
    (0xA779, 0xA77D), (0xA77E, 0xA786), (0xA78B, 0xA78D), (0xA790, 0xA792), (0xA796, 0xA7AA),
    (0xA7B6, 0xA7C4), (0xA7C9, 0xA7CB), (0xA7CC, 0xA7DC), (0x1D49C, 0x1D49E)]

def isUppercase (c : Char) : Bool :=
  solidRanges.any (fun r => r.1 ≤ c.toNat && c.toNat ≤ r.2) ||
    alternatingRanges.any (fun r => r.1 ≤ c.toNat && c.toNat ≤ r.2 && (c.toNat - r.1) % 2 == 0)

def consFirst (c : Char) : List (List Char) → List (List Char)
  | [] => [[c]]
  | p :: ps => (c :: p) :: ps

/-- The lines of a text. A line feed ends a line and takes a carriage return right before it along;
an empty rest after the last line feed is no line. -/
def lines : List Char → List (List Char)
  | [] => []
  | '\r' :: '\n' :: s => [] :: lines s
  | '\n' :: s => [] :: lines s
  | c :: s => consFirst c (lines s)

def pieces (separates : Char → Bool) : List Char → List (List Char)
  | [] => [[]]
  | c :: s => if separates c then [] :: pieces separates s else consFirst c (pieces separates s)

def words (s : List Char) : List (List Char) :=
  (pieces isBlank s).filter (fun p => !p.isEmpty)

def trim (s : List Char) : List Char :=
  ((s.dropWhile isBlank).reverse.dropWhile isBlank).reverse

def splitArrow? : List Char → Option (List Char × List Char)
  | [] => none
  | '-' :: '>' :: s => some ([], s)
  | c :: s => (splitArrow? s).map (fun p => (c :: p.1, p.2))

variable {separates : Char → Bool} {c : Char} {s t : List Char}

theorem pieces_ne_nil : pieces separates s ≠ [] := by
  cases s with
  | nil => simp [pieces]
  | cons c s =>
    unfold pieces
    split
    · simp
    · cases pieces separates s <;> simp [consFirst]

theorem consFirst_append {l m : List (List Char)} (h : l ≠ []) :
    consFirst c (l ++ m) = consFirst c l ++ m := by
  cases l with
  | nil => exact absurd rfl h
  | cons p l => rfl

theorem pieces_append (hc : separates c = true) :
    pieces separates (s ++ c :: t) = pieces separates s ++ pieces separates t := by
  induction s with
  | nil => simp [pieces, hc]
  | cons d s ih =>
    rw [List.cons_append, pieces, pieces, ih]
    split
    · rfl
    · exact consFirst_append pieces_ne_nil

theorem pieces_of_forall (h : ∀ c ∈ s, separates c = false) : pieces separates s = [s] := by
  induction s with
  | nil => rfl
  | cons c s ih =>
    rw [List.forall_mem_cons] at h
    simp [pieces, h.1, ih h.2, consFirst]

theorem words_append (hc : isBlank c = true) : words (s ++ c :: t) = words s ++ words t := by
  rw [words, pieces_append hc, List.filter_append]
  rfl

theorem words_of_forall (hs : s ≠ []) (h : ∀ c ∈ s, isBlank c = false) : words s = [s] := by
  simp [words, pieces_of_forall h, hs]

end ContextFreePaths.Text
