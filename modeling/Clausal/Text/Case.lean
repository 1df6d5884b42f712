import Clausal.Text.CharRanges

/-!
# Upper and lower case

The full case mappings of texts.  Most characters become one other character; some become several
in upper case, and a capital sigma becomes a final one at the end of a word.  The tables are those
of version 14 of the Unicode standard.

## Main definitions

- `upperCase`, `lowerCase`
-/

namespace Clausal

/-! ## Section 1: Tables -/

/-- A run of characters that a mapping shifts alike: the first code point, how many follow it, the
    step from one to the next, and the shift. -/
abbrev CaseRun : Type :=
  Nat × Nat × Nat × Int

/-- Whether a run has a code point. -/
def CaseRun.covers (r : CaseRun) (n : Nat) : Bool :=
  r.1 ≤ n && n ≤ r.1 + r.2.1 * r.2.2.1 && (n - r.1) % r.2.2.1 = 0

/-- The run that shifts the characters back. -/
def CaseRun.undo (r : CaseRun) : CaseRun :=
  ((r.1 + r.2.2.2).toNat, r.2.1, r.2.2.1, -r.2.2.2)

/-- Characters with one upper case character. -/
def upperRuns : List CaseRun :=
  [(0x61, 25, 1, -32), (0xb5, 0, 1, 743), (0xe0, 22, 1, -32), (0xf8, 6, 1, -32),
   (0xff, 0, 1, 121), (0x101, 23, 2, -1), (0x131, 0, 1, -232), (0x133, 2, 2, -1),
   (0x13a, 7, 2, -1), (0x14b, 22, 2, -1), (0x17a, 2, 2, -1), (0x17f, 0, 1, -300),
   (0x180, 0, 1, 195), (0x183, 1, 2, -1), (0x188, 0, 1, -1), (0x18c, 0, 1, -1), (0x192, 0, 1, -1),
   (0x195, 0, 1, 97), (0x199, 0, 1, -1), (0x19a, 0, 1, 163), (0x19e, 0, 1, 130),
   (0x1a1, 2, 2, -1), (0x1a8, 0, 1, -1), (0x1ad, 0, 1, -1), (0x1b0, 0, 1, -1), (0x1b4, 1, 2, -1),
   (0x1b9, 0, 1, -1), (0x1bd, 0, 1, -1), (0x1bf, 0, 1, 56), (0x1c5, 0, 1, -1), (0x1c6, 0, 1, -2),
   (0x1c8, 0, 1, -1), (0x1c9, 0, 1, -2), (0x1cb, 0, 1, -1), (0x1cc, 0, 1, -2), (0x1ce, 7, 2, -1),
   (0x1dd, 0, 1, -79), (0x1df, 8, 2, -1), (0x1f2, 0, 1, -1), (0x1f3, 0, 1, -2), (0x1f5, 0, 1, -1),
   (0x1f9, 19, 2, -1), (0x223, 8, 2, -1), (0x23c, 0, 1, -1), (0x23f, 1, 1, 10815),
   (0x242, 0, 1, -1), (0x247, 4, 2, -1), (0x250, 0, 1, 10783), (0x251, 0, 1, 10780),
   (0x252, 0, 1, 10782), (0x253, 0, 1, -210), (0x254, 0, 1, -206), (0x256, 1, 1, -205),
   (0x259, 0, 1, -202), (0x25b, 0, 1, -203), (0x25c, 0, 1, 42319), (0x260, 0, 1, -205),
   (0x261, 0, 1, 42315), (0x263, 0, 1, -207), (0x265, 0, 1, 42280), (0x266, 0, 1, 42308),
   (0x268, 0, 1, -209), (0x269, 0, 1, -211), (0x26a, 0, 1, 42308), (0x26b, 0, 1, 10743),
   (0x26c, 0, 1, 42305), (0x26f, 0, 1, -211), (0x271, 0, 1, 10749), (0x272, 0, 1, -213),
   (0x275, 0, 1, -214), (0x27d, 0, 1, 10727), (0x280, 0, 1, -218), (0x282, 0, 1, 42307),
   (0x283, 0, 1, -218), (0x287, 0, 1, 42282), (0x288, 0, 1, -218), (0x289, 0, 1, -69),
   (0x28a, 1, 1, -217), (0x28c, 0, 1, -71), (0x292, 0, 1, -219), (0x29d, 0, 1, 42261),
   (0x29e, 0, 1, 42258), (0x345, 0, 1, 84), (0x371, 1, 2, -1), (0x377, 0, 1, -1),
   (0x37b, 2, 1, 130), (0x3ac, 0, 1, -38), (0x3ad, 2, 1, -37), (0x3b1, 16, 1, -32),
   (0x3c2, 0, 1, -31), (0x3c3, 8, 1, -32), (0x3cc, 0, 1, -64), (0x3cd, 1, 1, -63),
   (0x3d0, 0, 1, -62), (0x3d1, 0, 1, -57), (0x3d5, 0, 1, -47), (0x3d6, 0, 1, -54),
   (0x3d7, 0, 1, -8), (0x3d9, 11, 2, -1), (0x3f0, 0, 1, -86), (0x3f1, 0, 1, -80),
   (0x3f2, 0, 1, 7), (0x3f3, 0, 1, -116), (0x3f5, 0, 1, -96), (0x3f8, 0, 1, -1),
   (0x3fb, 0, 1, -1), (0x430, 31, 1, -32), (0x450, 15, 1, -80), (0x461, 16, 2, -1),
   (0x48b, 26, 2, -1), (0x4c2, 6, 2, -1), (0x4cf, 0, 1, -15), (0x4d1, 47, 2, -1),
   (0x561, 37, 1, -48), (0x10d0, 42, 1, 3008), (0x10fd, 2, 1, 3008), (0x13f8, 5, 1, -8),
   (0x1c80, 0, 1, -6254), (0x1c81, 0, 1, -6253), (0x1c82, 0, 1, -6244), (0x1c83, 1, 1, -6242),
   (0x1c85, 0, 1, -6243), (0x1c86, 0, 1, -6236), (0x1c87, 0, 1, -6181), (0x1c88, 0, 1, 35266),
   (0x1d79, 0, 1, 35332), (0x1d7d, 0, 1, 3814), (0x1d8e, 0, 1, 35384), (0x1e01, 74, 2, -1),
   (0x1e9b, 0, 1, -59), (0x1ea1, 47, 2, -1), (0x1f00, 7, 1, 8), (0x1f10, 5, 1, 8),
   (0x1f20, 7, 1, 8), (0x1f30, 7, 1, 8), (0x1f40, 5, 1, 8), (0x1f51, 3, 2, 8), (0x1f60, 7, 1, 8),
   (0x1f70, 1, 1, 74), (0x1f72, 3, 1, 86), (0x1f76, 1, 1, 100), (0x1f78, 1, 1, 128),
   (0x1f7a, 1, 1, 112), (0x1f7c, 1, 1, 126), (0x1fb0, 1, 1, 8), (0x1fbe, 0, 1, -7205),
   (0x1fd0, 1, 1, 8), (0x1fe0, 1, 1, 8), (0x1fe5, 0, 1, 7), (0x214e, 0, 1, -28),
   (0x2170, 15, 1, -16), (0x2184, 0, 1, -1), (0x24d0, 25, 1, -26), (0x2c30, 47, 1, -48),
   (0x2c61, 0, 1, -1), (0x2c65, 0, 1, -10795), (0x2c66, 0, 1, -10792), (0x2c68, 2, 2, -1),
   (0x2c73, 0, 1, -1), (0x2c76, 0, 1, -1), (0x2c81, 49, 2, -1), (0x2cec, 1, 2, -1),
   (0x2cf3, 0, 1, -1), (0x2d00, 37, 1, -7264), (0x2d27, 0, 1, -7264), (0x2d2d, 0, 1, -7264),
   (0xa641, 22, 2, -1), (0xa681, 13, 2, -1), (0xa723, 6, 2, -1), (0xa733, 30, 2, -1),
   (0xa77a, 1, 2, -1), (0xa77f, 4, 2, -1), (0xa78c, 0, 1, -1), (0xa791, 1, 2, -1),
   (0xa794, 0, 1, 48), (0xa797, 9, 2, -1), (0xa7b5, 7, 2, -1), (0xa7c8, 1, 2, -1),
   (0xa7d1, 0, 1, -1), (0xa7d7, 1, 2, -1), (0xa7f6, 0, 1, -1), (0xab53, 0, 1, -928),
   (0xab70, 79, 1, -38864), (0xff41, 25, 1, -32), (0x10428, 39, 1, -40), (0x104d8, 35, 1, -40),
   (0x10597, 10, 1, -39), (0x105a3, 14, 1, -39), (0x105b3, 6, 1, -39), (0x105bb, 1, 1, -39),
   (0x10cc0, 50, 1, -64), (0x118c0, 31, 1, -32), (0x16e60, 31, 1, -32), (0x1e922, 33, 1, -34)]

/-- Characters with several upper case characters. -/
def upperLong : List (Nat × List Nat) :=
  [(0xdf, [0x53, 0x53]), (0x149, [0x2bc, 0x4e]), (0x1f0, [0x4a, 0x30c]),
   (0x390, [0x399, 0x308, 0x301]), (0x3b0, [0x3a5, 0x308, 0x301]), (0x587, [0x535, 0x552]),
   (0x1e96, [0x48, 0x331]), (0x1e97, [0x54, 0x308]), (0x1e98, [0x57, 0x30a]),
   (0x1e99, [0x59, 0x30a]), (0x1e9a, [0x41, 0x2be]), (0x1f50, [0x3a5, 0x313]),
   (0x1f52, [0x3a5, 0x313, 0x300]), (0x1f54, [0x3a5, 0x313, 0x301]),
   (0x1f56, [0x3a5, 0x313, 0x342]), (0x1fb2, [0x1fba, 0x399]), (0x1fb3, [0x391, 0x399]),
   (0x1fb4, [0x386, 0x399]), (0x1fb6, [0x391, 0x342]), (0x1fb7, [0x391, 0x342, 0x399]),
   (0x1fbc, [0x391, 0x399]), (0x1fc2, [0x1fca, 0x399]), (0x1fc3, [0x397, 0x399]),
   (0x1fc4, [0x389, 0x399]), (0x1fc6, [0x397, 0x342]), (0x1fc7, [0x397, 0x342, 0x399]),
   (0x1fcc, [0x397, 0x399]), (0x1fd2, [0x399, 0x308, 0x300]), (0x1fd3, [0x399, 0x308, 0x301]),
   (0x1fd6, [0x399, 0x342]), (0x1fd7, [0x399, 0x308, 0x342]), (0x1fe2, [0x3a5, 0x308, 0x300]),
   (0x1fe3, [0x3a5, 0x308, 0x301]), (0x1fe4, [0x3a1, 0x313]), (0x1fe6, [0x3a5, 0x342]),
   (0x1fe7, [0x3a5, 0x308, 0x342]), (0x1ff2, [0x1ffa, 0x399]), (0x1ff3, [0x3a9, 0x399]),
   (0x1ff4, [0x38f, 0x399]), (0x1ff6, [0x3a9, 0x342]), (0x1ff7, [0x3a9, 0x342, 0x399]),
   (0x1ffc, [0x3a9, 0x399]), (0xfb00, [0x46, 0x46]), (0xfb01, [0x46, 0x49]),
   (0xfb02, [0x46, 0x4c]), (0xfb03, [0x46, 0x46, 0x49]), (0xfb04, [0x46, 0x46, 0x4c]),
   (0xfb05, [0x53, 0x54]), (0xfb06, [0x53, 0x54]), (0xfb13, [0x544, 0x546]),
   (0xfb14, [0x544, 0x535]), (0xfb15, [0x544, 0x53b]), (0xfb16, [0x54e, 0x546]),
   (0xfb17, [0x544, 0x53d])]

/-- Greek letters with an iota below, in rows of eight: they become a capital and a capital iota. -/
def upperIota : List (Nat × List Nat) :=
  [(0x1f80, 0x1f08), (0x1f88, 0x1f08), (0x1f90, 0x1f28), (0x1f98, 0x1f28), (0x1fa0, 0x1f68),
   (0x1fa8, 0x1f68)].flatMap fun row =>
    (List.range 8).map fun k => (row.1 + k, [row.2 + k, 0x399])

/-- Characters with one lower case character that does not have them as its only upper case
    character. -/
def lowerOnlyRuns : List CaseRun :=
  [(0x1c4, 0, 1, 2), (0x1c5, 0, 1, 1), (0x1c7, 0, 1, 2), (0x1c8, 0, 1, 1), (0x1ca, 0, 1, 2),
   (0x1cb, 0, 1, 1), (0x1f1, 0, 1, 2), (0x1f2, 0, 1, 1), (0x399, 0, 1, 32), (0x39c, 0, 1, 32),
   (0x3a3, 0, 1, 32), (0x3f4, 0, 1, -60), (0x1e9e, 0, 1, -7615), (0x1f88, 7, 1, -8),
   (0x1f98, 7, 1, -8), (0x1fa8, 7, 1, -8), (0x1fbc, 0, 1, -9), (0x1fcc, 0, 1, -9),
   (0x1ffc, 0, 1, -9), (0x2126, 0, 1, -7517), (0x212a, 0, 1, -8383), (0x212b, 0, 1, -8262),
   (0xa64a, 0, 1, 1)]

/-- Characters with one lower case character.  As a rule they are the upper case of that. -/
def lowerRuns : List CaseRun :=
  lowerOnlyRuns ++ upperRuns.map CaseRun.undo

/-- Characters with several lower case characters. -/
def lowerLong : List (Nat × List Nat) :=
  [(0x130, [0x69, 0x307])]

/-- Characters that do not count when the end of a word is looked for. -/
def caseIgnorable : CharRanges :=
  [39,1,6,1,11,1,35,1,1,1,71,1,4,1,1,1,4,1,2,2,503,192,4,2,4,1,9,2,1,1,251,7,207,1,5,1,49,45,1,1,1,
   2,1,2,1,1,44,1,11,6,10,11,1,1,35,1,10,21,16,1,101,8,1,10,1,4,33,1,1,1,30,27,91,11,58,11,4,1,2,1,
   24,24,43,3,44,1,7,2,6,8,41,58,55,1,1,1,4,8,4,1,3,7,10,2,13,1,15,1,58,1,4,4,8,1,20,2,26,1,2,2,57,
   1,4,2,4,2,2,3,3,1,30,2,3,1,11,2,57,1,4,5,1,2,4,1,20,2,22,6,1,1,58,1,2,1,1,4,8,1,7,2,11,2,30,1,61,
   1,12,1,50,1,3,1,55,1,1,3,5,3,1,4,7,2,11,2,29,1,58,1,2,1,6,1,5,2,20,2,28,2,57,2,4,4,8,1,20,2,29,1,
   72,1,7,3,1,1,90,1,2,7,11,9,98,1,2,9,9,1,1,6,74,2,27,1,1,1,1,1,55,14,1,5,1,2,5,11,1,36,9,1,102,4,
   1,6,1,2,2,2,25,2,4,3,16,4,13,1,2,2,6,1,15,1,94,1,608,3,946,3,29,2,30,2,30,2,64,2,1,7,8,1,2,11,3,
   1,5,1,45,5,51,1,65,2,34,1,118,3,4,2,9,1,6,3,219,2,2,1,58,1,1,7,1,1,1,1,2,8,6,10,2,1,39,1,8,31,49,
   4,48,1,1,5,1,1,5,1,40,9,12,2,32,4,2,2,1,3,56,1,1,2,3,1,1,3,58,8,2,2,64,6,82,3,1,13,1,7,4,1,6,1,3,
   2,50,63,13,1,34,101,445,1,1,3,11,3,13,3,13,3,13,2,12,5,8,2,10,1,2,1,2,5,49,5,1,10,1,1,13,1,16,13,
   51,33,2955,2,113,3,125,1,15,1,96,32,47,1,469,1,36,4,3,5,5,1,93,6,93,3,28438,1,1250,6,270,1,98,4,
   1,10,1,1,28,4,80,2,14,34,78,1,23,3,103,3,3,2,8,1,3,1,4,1,25,2,5,1,151,2,26,18,13,1,38,8,25,11,46,
   3,48,1,2,4,2,2,17,1,21,2,66,6,2,2,2,2,12,1,8,1,35,1,11,1,51,1,1,3,2,2,5,2,1,1,27,1,14,2,5,2,1,1,
   100,5,9,3,121,1,2,1,4,1,20272,1,147,17,573,16,3,1,12,16,34,1,2,1,169,1,7,1,6,1,11,1,35,1,1,1,47,
   1,45,2,67,1,21,3,513,1,226,1,149,5,1029,6,1,42,1,9,582,3,1,2,5,4,40,3,4,1,165,2,573,4,387,2,153,
   11,49,4,123,1,54,15,41,1,2,2,10,3,49,4,2,2,2,1,4,1,10,1,50,3,36,5,1,8,62,1,12,2,52,9,10,4,2,1,95,
   3,2,1,1,2,6,1,160,1,3,8,21,2,57,2,3,1,37,7,3,5,195,8,2,3,1,1,23,1,84,6,1,1,4,2,1,2,238,4,6,2,1,2,
   27,2,85,8,2,1,1,2,106,1,1,1,2,6,1,1,101,3,2,4,1,5,259,9,1,2,256,2,1,1,4,1,144,4,2,2,4,1,32,10,40,
   6,2,4,8,1,9,6,2,3,46,13,1,2,406,7,1,6,1,1,82,22,2,7,1,2,1,2,122,6,3,1,1,2,1,7,1,1,72,2,3,1,1,1,
   347,2,5435,9,14007,5,59,7,9,4,1035,1,63,17,64,2,1,2,16395,4,1,7,1,2,3230,2,1,4,4700,46,2,23,544,
   3,9,16,2,7,30,4,148,3,1979,55,4,50,8,1,14,1,22,5,1,15,1360,7,1,17,2,7,1,2,1,5,261,14,368,1,61,4,
   1504,7,109,8,2735,5,789505,1,30,96,128,240]

/-- Characters that belong to words with upper and lower case, other than those that do not
    count. -/
def casedRanges : CharRanges :=
  [65,26,6,26,47,1,10,1,4,1,5,23,1,31,1,195,1,4,4,208,1,27,192,4,2,2,3,3,1,1,6,1,1,3,1,1,1,20,1,83,
   1,139,8,166,1,38,9,41,2839,38,1,1,5,1,2,43,2,3,672,86,2,6,2178,9,7,43,2,3,64,44,63,13,1,34,101,
   278,2,6,2,38,2,6,2,8,1,1,1,1,1,1,1,31,2,53,1,7,1,1,3,3,1,7,3,4,2,6,4,13,5,3,1,7,261,1,4,1,2,10,1,
   1,3,5,6,1,1,1,1,1,1,4,1,6,4,1,2,4,5,5,4,1,17,32,3,2,817,52,1814,124,2,103,6,4,3,2,12,38,1,1,5,1,
   30994,46,18,28,134,78,1,23,3,4,1,59,5,2,1,1,1,5,27,2,3,1,821,43,5,9,7,80,20288,7,12,5,1033,26,6,
   26,1189,80,96,36,4,36,116,11,1,15,1,7,1,2,1,11,1,15,1,7,1,2,1731,51,13,51,2989,64,21856,64,25984,
   85,1,71,1,2,2,1,2,2,2,4,1,12,1,1,1,7,1,65,1,4,2,8,1,7,1,28,1,4,1,5,1,1,3,7,1,340,2,25,1,25,1,31,
   1,25,1,31,1,25,1,31,1,25,1,31,1,25,1,8,1844,10,1,20,2529,68,2028,26,6,26,6,26]

/-! ## Section 2: Mappings -/

/-- Map a character by tables of characters with several and with one counterpart. -/
def mapCase (long : List (Nat × List Nat)) (runs : List CaseRun) (c : Char) : List Char :=
  match long.lookup c.toNat, runs.find? (CaseRun.covers · c.toNat) with
  | some ns, _ => ns.map Char.ofNat
  | none, some r => [Char.ofNat (c.toNat + r.2.2.2).toNat]
  | none, none => [c]

/-- A text in upper case. -/
def upperCase (s : String) : String :=
  String.ofList (s.toList.flatMap (mapCase (upperLong ++ upperIota) upperRuns))

/-- Whether the first character that counts belongs to a word with upper and lower case. -/
def startsCased (cs : List Char) : Bool :=
  ((cs.dropWhile caseIgnorable.covers).head?.map casedRanges.covers).getD false

/-- The characters of a text in lower case, after the given characters in reverse.  A capital sigma
    that ends a word becomes a final one. -/
def lowerChars (before : List Char) : List Char → List Char
  | [] => []
  | c :: cs =>
    let low : List Char :=
      if c = 'Σ' then [if startsCased before && !startsCased cs then 'ς' else 'σ']
      else mapCase lowerLong lowerRuns c
    low ++ lowerChars (c :: before) cs

/-- A text in lower case. -/
def lowerCase (s : String) : String :=
  String.ofList (lowerChars [] s.toList)

end Clausal
