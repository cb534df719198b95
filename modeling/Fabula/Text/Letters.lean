import Fabula.Text.CodeSet

/-! Letters and numerals. ASCII is decided by rule, every other character by the ranges of the
properties Alphabetic and Numeric. -/

namespace Fabula.Text

/-- The alphabetic characters beyond ASCII. -/
def wideLetters : CodeSet := CodeSet.ofLines [
  "aa 0 b 0 5 0 6 16 2 1e 2 1c9 5 b f 4 8 0 2 0 57 0 1e 11 2 1 3 3 2 0 7 0 2 2 2 0 2 13 2 52 2",
  "8a 9 a5 2 25 3 0 7 28 28 d 2 0 2 1 2 1 2 0 9 1a 5 3 1e a 6 37 2 6 f 65 2 7 5 7 5 2 b 2 3 0",
  "11 2f e 64 19 20 a 1 5 0 6 17 3 12 14 18 8 a 6 17 2 6 8 0 9 29 b b 4 6 7 4b 2 f 2 2 5 e e 12",
  "2 7 3 1 3 15 2 6 2 0 4 3 4 7 3 1 3 1 2 0 9 0 5 1 2 4 d 1 b 0 5 2 2 5 5 1 3 15 2 6 2 1 2 1 2",
  "1 5 4 5 1 3 1 5 0 8 3 2 0 12 5 c 2 2 8 2 2 2 15 2 6 2 1 2 4 4 8 2 2 2 1 4 0 10 3 16 3 5 2 2",
  "7 3 1 3 15 2 6 2 1 2 4 4 7 3 1 3 1 a 1 5 1 2 4 e 0 11 1 2 5 4 2 2 3 4 1 2 0 2 1 4 1 4 2 4 b",
  "5 4 4 2 2 2 4 0 7 0 29 c 2 2 2 16 2 f 4 7 2 2 2 2 9 1 2 2 2 1 3 3 1d 3 2 7 2 2 2 16 2 9 2 4",
  "4 7 2 2 2 2 9 1 6 2 2 3 e 2 d c 2 2 2 28 3 7 2 2 2 2 2 0 6 3 8 4 17 5 2 2 2 11 4 17 2 8 2 0",
  "3 6 9 5 2 0 2 7 13 1 e 39 6 6 7 0 34 1 2 0 2 4 2 17 2 0 2 12 2 2 3 4 2 0 7 0 f 3 21 0 40 7 2",
  "23 5 12 5 f 2 23 44 36 2 0 3 4 11 3f b 3 3 25 2 0 6 0 3 2a 2 14c 2 3 3 6 2 0 2 3 3 28 2 3 3",
  "20 2 3 3 6 2 0 2 3 3 e 2 38 2 3 3 42 26 f 11 55 3 5 4 26b 3 10 2 19 6 4a 4 a 8 13 c 14 d 13",
  "d c 2 2 2 1 d 33 3 12 f 0 5 0 44 58 8 2a 6 45 b 1e 2 b 5 8 18 1d 3 4 c 2b 5 19 37 1b 5 3e 3",
  "13 33 0 18 1 c 2 32 33 2 e 2 7 34 29 3 3 b 2b 2 a f 36 17 2 b 23 3 a 6 2a 3 2 2a 3 2 5 2 1 4",
  "0 6 bf 14 21 c 115 3 5 3 25 3 5 3 7 2 0 2 0 2 0 2 1e 3 34 2 6 2 0 4 2 2 6 4 3 3 5 5 c 6 2 2",
  "6 75 0 e 0 11 c 66 0 5 0 3 9 2 0 4 4 7 0 2 0 2 0 2 3 2 a 3 3 6 4 5 0 12 28 32e 33 717 e4 7 3",
  "4 1 d 25 2 0 6 0 3 37 8 0 11 16 a 6 2 6 2 6 2 6 2 6 2 6 2 6 2 6 2 1f 30 0 1d6 2 1a 8 8 4 3 4",
  "5 55 7 2 2 59 2 3 6 2a 2 5d 12 1f 31 f 201 19bf 41 568c 44 2d 3 10c 4 f b 1 15 2e 6 7 4 70",
  "28 8 3 66 3 51 15 14 2 20 19 33 d 43 2 0 2d 5 4 0 2 2 b 20 6 22 e 1c 4 32 2 b 10 0 11 f b 4",
  "2 36 a d 13 16 4 44 2 0 2 0 19 2 3 f 3 3 c 5 3 5 3 5 a 6 2 6 2 2a 2 d 7 7a 16 2ba3 d 16 5 30",
  "2105 16d 3 69 27 6 d 4 6 b 2 c 2 4 2 0 2 1 2 1 2 6b 22 16a 13 3f 3 35 29 b 75 4 2 86 25 19 7",
  "19 c 58 4 5 3 5 3 5 3 2 24 b 2 19 2 12 2 1 2 e 3 d 23 7a 46 34 10c 1c 4 30 30 1f e 1d 6 2a 6",
  "1d 3 23 5 7 2 4 2b 9d 13 23 5 23 5 27 9 33 d a 2 e 2 6 2 1 2 a 2 e 2 6 2 1 4 33 d 136 a 15 b",
  "7 19 5 2 29 2 8 46 5 3 0 2 2b 2 1 4 0 3 16 b 16 a 1e 42 12 2 1 b 15 b 19 7 19 27 37 7 1 41 3",
  "2 1 6 7 2 2 2 1c 2b 1c 4 1c 24 7 2 1b 1c 35 b 15 b 12 e 11 6f 48 38 32 e 32 e 27 23 1b 4 0 6",
  "16 fb 29 2 1 4 1 11 5 33 2 4 1c b 0 9 15 2b 11 2f 14 1c 16 a 45 2c 4 b 38 a 0 e 18 18 32 12",
  "3 9 22 4 0 a 3f 2 3 a 1 b 0 2 0 24 11 2 21 3 0 7 3 3f 6 2 0 2 3 2 e 2 9 8 38 18 3 2 7 3 1 3",
  "15 2 6 2 1 2 4 4 7 3 1 3 1 4 0 7 0 6 6 1d 9 2 0 3 0 2 25 2 9 2 0 3 0 2 3 2 1 4 0 2 0 2d 41 2",
  "2 2 3 15 2 1f 41 3 1 2 0 b9 35 3 6 1a 5 23 3e 2 0 4 0 3c 35 3 0 48 1a 3 d 16 6 ba 38 68 3f",
  "20 7 3 0 3 7 2 1 2 1d 2 1 3 1 3 3 5e 7 3 2d 3 5 2 0 2 1 1c 32 3 9 12 47 6 0 13 48 68 7 59 20",
  "20 8 2 2c 2 6 2 0 32 1d 3 15 2 d 4a 6 2 1 2 2b 4 0 2 1 2 2 2 0 3 1 19 5 2 1 2 24 2 1 2 3 2 0",
  "18 2b 105 16 a 10 2 28 4 2 70 0 50 399 67 6e 12 c3 a4d 60 10 42f 12 5 1a f9a 6 246 1aba 2e",
  "6d2 238 8 1e 12 4e 12 1d 13 2f 11 3 20 14 6 12 1b1 2c d4 3f 21 18 3 18 2d 4a 5 38 8 10 41 1",
  "2 0 d 6 a 1cd5 2a 1f 62 72 21fe 3 2 6 2 1 2 122 10 0 1e 2 3 0 f 3 9 18b 905 6a 6 c 4 8 8 9 5",
  "0 1762 54 2 46 2 1 3 0 3 1 3 3 2 b 2 0 2 6 2 40 2 3 3 7 2 6 2 1b 2 3 2 4 2 0 4 6 2 153 3 18",
  "2 18 2 1e 2 18 2 1e 2 18 2 1e 2 18 2 1e 2 18 2 7 735 1e 7 5 d6 6 2 10 3 6 2 1 2 4 6 3d 22 0",
  "71 2c b 6 11 0 142 1d 13 2b 1e5 1b e5 1d 3 0 d0 1e 2 15 9 1 e1 6 2 3 2 1 2 e 2 c4 3c 43 4 0",
  "4 0 4b5 3 2 1a 2 1 2 0 3 0 2 9 2 3 2 0 2 0 7 0 5 0 2 0 2 0 2 2 2 1 2 0 3 0 2 0 2 0 2 0 2 0 2",
  "1 2 0 3 3 2 6 2 3 2 3 2 0 2 9 2 10 6 2 2 4 2 10 275 19 7 19 7 19 e77 a6df 21 111d 3 168d 3",
  "1d30 10 26d 9a3 21d 5e3 134a 6 2129"]

/-- The characters of the number categories (decimal, letter-like, other) beyond ASCII. -/
def wideNumerals : CodeSet := CodeSet.ofLines [
  "b2 1 6 0 3 2 5a2 9 87 9 c7 9 19d 9 77 9 5 5 6d 9 77 9 77 9 3 5 6f c 74 9 9 6 68 9 69 6 8 12",
  "6e 9 61 9 77 9 47 13 10d 9 47 9 2d0 13 372 2 f0 9 7 9 17 9 12d 9 81 a a6 9 7 9 b7 9 57 9 87",
  "9 7 9 417 0 4 5 7 9 c7 32 3 4 2d7 3b 4f 15 277 1d 56a 0 30a 0 1a 8 f 2 158 3 8b 9 1f 7 2 e",
  "21 9 28 e 7361 9 bd 9 141 5 9b 9 27 9 c7 9 17 9 57 9 197 9 5317 9 1ee 2c d 38 12 1 156 1a 25",
  "3 1e 0 9 0 87 4 cb 9 3af 7 1a 6 28 8 4c 4 17 5 a1 1 3 f 3 2d 41 8 35 1 1f 2 4c 4 69 7 19 7",
  "2a 6 14b 5 31 9 7 9 117 1e 9f 9 2b 3 71 6 87 1d 81 9 3d 9 91 9 8 13 fc 9 157 9 77 9 177 9 67",
  "9 7 13 4d b 1a5 12 5e 9 297 9 57 1c e4 9 47 9 37 9 167 9 67 14 42c 6e 3cc2 9 927 9 57 9 87 9",
  "2 6 20f 9 107 16 15e 2 5cfa 9 5c7 13 d 13 6d 18 456 31 941 9 1a7 9 1f7 9 f8 9 2cd 8 81 9 318",
  "3a 2 2 2 3 4d 2c 2 e 3c3 c ae4 9"]

def isLetter (c : Char) : Bool := if c.toNat < 128 then c.isAlpha else wideLetters.mem c

def isNumeral (c : Char) : Bool := if c.toNat < 128 then c.isDigit else wideNumerals.mem c

end Fabula.Text
