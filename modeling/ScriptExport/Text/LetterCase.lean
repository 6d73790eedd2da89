import ScriptExport.Text.CodeRange

/-!
# Upper and lower case of a first character

The full Unicode case mappings of a single character: most characters map to one, a few to two or
three (`ß` to `SS`). ASCII is decided directly, the tables hold the code points from U+0080 on as runs of
characters that lie `step` apart and move by the same distance. Most runs go both ways, from small
letters to capitals and back.
-/

namespace ScriptExport.Text

/-- The code points `first, first + step, …, last`, each mapped to itself plus `shift`. -/
structure CaseRun where
  first : Nat
  last : Nat
  step : Nat
  shift : Int

/-- The code point that the run maps `n` to, if it holds `n`. -/
def CaseRun.value? (r : CaseRun) (n : Nat) : Option Nat :=
  if r.first ≤ n && n ≤ r.last && (n - r.first) % r.step == 0 then some (n + r.shift).toNat else none

/-- The run that maps back. -/
def CaseRun.inverse (r : CaseRun) : CaseRun :=
  ⟨(r.first + r.shift).toNat, (r.last + r.shift).toNat, r.step, -r.shift⟩

/-- The run of one code point. -/
def CaseRun.single (row : Nat × Int) : CaseRun :=
  ⟨row.1, row.1, 1, row.2⟩

/-- The rows in which capitals and small letters take turns, each from its first small letter to its
last. -/
def letterTurns : List (Nat × Nat) := rangesFrom 0x100 [
  1, 47, 3, 5, 2, 15, 2, 45, 2, 5, 4, 3, 2, 1, 3, 1, 5, 1, 6, 1, 7, 5, 2, 1, 4, 1, 2, 1, 3, 3, 2, 1,
  3, 1, 16, 15, 2, 17, 5, 1, 3, 39, 3, 17, 8, 1, 5, 1, 4, 9, 289, 3, 3, 1, 97, 23, 8, 1, 2, 1, 101,
  33, 9, 53, 2, 13, 2, 95, 6353, 149, 11, 95, 644, 1, 2780, 1, 6, 5, 6, 1, 2, 1, 10, 99, 8, 3, 4, 1,
  31053, 45, 19, 27, 135, 13, 3, 61, 10, 3, 2, 9, 4, 1, 4, 3, 3, 19, 11, 15, 4, 3, 6, 1, 5, 3, 28,
  1]

/-- Small letters with their capitals, where each is the one form of the other. -/
def letterPairs : List CaseRun :=
  letterTurns.map (fun row => ⟨row.1, row.2, 2, -1⟩) ++ [
    ⟨0xE0, 0xF6, 1, -32⟩, ⟨0xF8, 0xFE, 1, -32⟩, ⟨0x23F, 0x240, 1, 10815⟩, ⟨0x256, 0x257, 1, -205⟩,
    ⟨0x28A, 0x28B, 1, -217⟩, ⟨0x37B, 0x37D, 1, 130⟩, ⟨0x3AD, 0x3AF, 1, -37⟩, ⟨0x3B1, 0x3C1, 1, -32⟩,
    ⟨0x3C3, 0x3CB, 1, -32⟩, ⟨0x3CD, 0x3CE, 1, -63⟩, ⟨0x430, 0x44F, 1, -32⟩, ⟨0x450, 0x45F, 1, -80⟩,
    ⟨0x561, 0x586, 1, -48⟩, ⟨0x10D0, 0x10FA, 1, 3008⟩, ⟨0x10FD, 0x10FF, 1, 3008⟩,
    ⟨0x13F8, 0x13FD, 1, -8⟩, ⟨0x1F00, 0x1F07, 1, 8⟩, ⟨0x1F10, 0x1F15, 1, 8⟩, ⟨0x1F20, 0x1F27, 1, 8⟩,
    ⟨0x1F30, 0x1F37, 1, 8⟩, ⟨0x1F40, 0x1F45, 1, 8⟩, ⟨0x1F51, 0x1F57, 2, 8⟩, ⟨0x1F60, 0x1F67, 1, 8⟩,
    ⟨0x1F70, 0x1F71, 1, 74⟩, ⟨0x1F72, 0x1F75, 1, 86⟩, ⟨0x1F76, 0x1F77, 1, 100⟩,
    ⟨0x1F78, 0x1F79, 1, 128⟩, ⟨0x1F7A, 0x1F7B, 1, 112⟩, ⟨0x1F7C, 0x1F7D, 1, 126⟩,
    ⟨0x1FB0, 0x1FB1, 1, 8⟩, ⟨0x1FD0, 0x1FD1, 1, 8⟩, ⟨0x1FE0, 0x1FE1, 1, 8⟩,
    ⟨0x2170, 0x217F, 1, -16⟩, ⟨0x24D0, 0x24E9, 1, -26⟩, ⟨0x2C30, 0x2C5F, 1, -48⟩,
    ⟨0x2D00, 0x2D25, 1, -7264⟩, ⟨0xAB70, 0xABBF, 1, -38864⟩, ⟨0xFF41, 0xFF5A, 1, -32⟩,
    ⟨0x10428, 0x1044F, 1, -40⟩, ⟨0x104D8, 0x104FB, 1, -40⟩, ⟨0x10597, 0x105BB, 2, -39⟩,
    ⟨0x10598, 0x105A0, 2, -39⟩, ⟨0x105A4, 0x105B0, 2, -39⟩, ⟨0x105B4, 0x105B8, 2, -39⟩,
    ⟨0x10CC0, 0x10CF2, 1, -64⟩, ⟨0x118C0, 0x118DF, 1, -32⟩, ⟨0x16E60, 0x16E7F, 1, -32⟩,
    ⟨0x1E922, 0x1E943, 1, -34⟩] ++ List.map .single [
    (0xFF, 121), (0x180, 195), (0x195, 97), (0x19A, 163), (0x19E, 130), (0x1BF, 56), (0x1C6, -2),
    (0x1C9, -2), (0x1CC, -2), (0x1DD, -79), (0x1F3, -2), (0x250, 10783), (0x251, 10780),
    (0x252, 10782), (0x253, -210), (0x254, -206), (0x259, -202), (0x25B, -203), (0x25C, 42319),
    (0x260, -205), (0x261, 42315), (0x263, -207), (0x265, 42280), (0x266, 42308), (0x268, -209),
    (0x269, -211), (0x26A, 42308), (0x26B, 10743), (0x26C, 42305), (0x26F, -211), (0x271, 10749),
    (0x272, -213), (0x275, -214), (0x27D, 10727), (0x280, -218), (0x282, 42307), (0x283, -218),
    (0x287, 42282), (0x288, -218), (0x289, -69), (0x28C, -71), (0x292, -219), (0x29D, 42261),
    (0x29E, 42258), (0x3AC, -38), (0x3CC, -64), (0x3D7, -8), (0x3F2, 7), (0x3F3, -116),
    (0x4CF, -15), (0x1D79, 35332), (0x1D7D, 3814), (0x1D8E, 35384), (0x1FE5, 7), (0x214E, -28),
    (0x2C65, -10795), (0x2C66, -10792), (0x2D27, -7264), (0x2D2D, -7264), (0xA794, 48),
    (0xAB53, -928), (0x105BC, -39)]

/-- The other characters whose upper-case form is one character. -/
def upperOnly : List CaseRun :=
  [⟨0x1C83, 0x1C84, 1, -6242⟩] ++
  List.map .single [
    (0xB5, 743), (0x131, -232), (0x17F, -300), (0x1C5, -1), (0x1C8, -1), (0x1CB, -1), (0x1F2, -1),
    (0x345, 84), (0x3C2, -31), (0x3D0, -62), (0x3D1, -57), (0x3D5, -47), (0x3D6, -54), (0x3F0, -86),
    (0x3F1, -80), (0x3F5, -96), (0x1C80, -6254), (0x1C81, -6253), (0x1C82, -6244), (0x1C85, -6243),
    (0x1C86, -6236), (0x1C87, -6181), (0x1C88, 35266), (0x1E9B, -59), (0x1FBE, -7205)]

/-- Code points whose upper-case form is one other character. -/
def upperRuns : List CaseRun :=
  letterPairs ++ upperOnly

/-- Rows of eight Greek letters with an iota below, each with its first capital. -/
def iotaRows : List (Nat × Nat) := [
  (0x1F80, 0x1F08), (0x1F88, 0x1F08), (0x1F90, 0x1F28), (0x1F98, 0x1F28), (0x1FA0, 0x1F68),
  (0x1FA8, 0x1F68)]

/-- Code points whose upper-case form has several characters. -/
def upperSpecial : List (Nat × List Nat) :=
  iotaRows.flatMap (fun row => (List.range 8).map fun i => (row.1 + i, [row.2 + i, 0x399])) ++ [
  (0xDF, [0x53, 0x53]), (0x149, [0x2BC, 0x4E]), (0x1F0, [0x4A, 0x30C]),
  (0x390, [0x399, 0x308, 0x301]), (0x3B0, [0x3A5, 0x308, 0x301]), (0x587, [0x535, 0x552]),
  (0x1E96, [0x48, 0x331]), (0x1E97, [0x54, 0x308]), (0x1E98, [0x57, 0x30A]),
  (0x1E99, [0x59, 0x30A]), (0x1E9A, [0x41, 0x2BE]), (0x1F50, [0x3A5, 0x313]),
  (0x1F52, [0x3A5, 0x313, 0x300]), (0x1F54, [0x3A5, 0x313, 0x301]), (0x1F56, [0x3A5, 0x313, 0x342]),
  (0x1FB2, [0x1FBA, 0x399]), (0x1FB3, [0x391, 0x399]), (0x1FB4, [0x386, 0x399]),
  (0x1FB6, [0x391, 0x342]), (0x1FB7, [0x391, 0x342, 0x399]), (0x1FBC, [0x391, 0x399]),
  (0x1FC2, [0x1FCA, 0x399]), (0x1FC3, [0x397, 0x399]), (0x1FC4, [0x389, 0x399]),
  (0x1FC6, [0x397, 0x342]), (0x1FC7, [0x397, 0x342, 0x399]), (0x1FCC, [0x397, 0x399]),
  (0x1FD2, [0x399, 0x308, 0x300]), (0x1FD3, [0x399, 0x308, 0x301]), (0x1FD6, [0x399, 0x342]),
  (0x1FD7, [0x399, 0x308, 0x342]), (0x1FE2, [0x3A5, 0x308, 0x300]), (0x1FE3, [0x3A5, 0x308, 0x301]),
  (0x1FE4, [0x3A1, 0x313]), (0x1FE6, [0x3A5, 0x342]), (0x1FE7, [0x3A5, 0x308, 0x342]),
  (0x1FF2, [0x1FFA, 0x399]), (0x1FF3, [0x3A9, 0x399]), (0x1FF4, [0x38F, 0x399]),
  (0x1FF6, [0x3A9, 0x342]), (0x1FF7, [0x3A9, 0x342, 0x399]), (0x1FFC, [0x3A9, 0x399]),
  (0xFB00, [0x46, 0x46]), (0xFB01, [0x46, 0x49]), (0xFB02, [0x46, 0x4C]),
  (0xFB03, [0x46, 0x46, 0x49]), (0xFB04, [0x46, 0x46, 0x4C]), (0xFB05, [0x53, 0x54]),
  (0xFB06, [0x53, 0x54]), (0xFB13, [0x544, 0x546]), (0xFB14, [0x544, 0x535]),
  (0xFB15, [0x544, 0x53B]), (0xFB16, [0x54E, 0x546]), (0xFB17, [0x544, 0x53D])]

/-- The other characters whose lower-case form is one character. -/
def lowerOnly : List CaseRun :=
  [⟨0x1F88, 0x1F8F, 1, -8⟩, ⟨0x1F98, 0x1F9F, 1, -8⟩, ⟨0x1FA8, 0x1FAF, 1, -8⟩] ++
  List.map .single [
    (0x1C5, 1), (0x1C8, 1), (0x1CB, 1), (0x1F2, 1), (0x3F4, -60), (0x1E9E, -7615), (0x1FBC, -9),
    (0x1FCC, -9), (0x1FFC, -9), (0x2126, -7517), (0x212A, -8383), (0x212B, -8262)]

/-- Code points whose lower-case form is one other character. -/
def lowerRuns : List CaseRun :=
  letterPairs.map CaseRun.inverse ++ lowerOnly

/-- Code points whose lower-case form has several characters. -/
def lowerSpecial : List (Nat × List Nat) := [
  (0x130, [0x69, 0x307])]

/-- The mapping of one character: by the special cases, then by the runs, else to itself. -/
def mapCase (special : List (Nat × List Nat)) (runs : List CaseRun) (c : Char) : List Char :=
  match special.lookup c.toNat with
  | some codes => codes.map Char.ofNat
  | none => match runs.findSome? (·.value? c.toNat) with
    | some code => [Char.ofNat code]
    | none => [c]

/-- The full upper-case form of a character. -/
def upper (c : Char) : List Char :=
  if c.toNat < 0x80 then [c.toUpper] else mapCase upperSpecial upperRuns c

/-- The full lower-case form of a character. -/
def lower (c : Char) : List Char :=
  if c.toNat < 0x80 then [c.toLower] else mapCase lowerSpecial lowerRuns c

/-- The text with its first character in upper case. -/
def capitalizeChars : List Char → List Char
  | [] => []
  | c :: cs => upper c ++ cs

/-- The text with its first character in lower case. -/
def uncapitalizeChars : List Char → List Char
  | [] => []
  | c :: cs => lower c ++ cs

/-- The text with its first character in upper case. -/
def capitalize (s : String) : String :=
  String.ofList (capitalizeChars s.toList)

/-- The text with its first character in lower case. -/
def uncapitalize (s : String) : String :=
  String.ofList (uncapitalizeChars s.toList)

/-- The text with its ASCII capital letters in lower case. -/
def asciiLower (s : String) : String :=
  String.ofList (s.toList.map Char.toLower)

end ScriptExport.Text
