/-! # Small and capital letters

Case mappings are given as runs: of the code points from `first` to `last`, every `stride`-th one is moved by
`shift`. Some small letters have no single capital and become two or three characters.
-/

namespace PineEngine.Text

structure CaseRun where
  first : Nat
  last : Nat
  stride : Nat
  shift : Int

def CaseRun.move? (r : CaseRun) (n : Nat) : Option Nat :=
  if r.first ≤ n && n ≤ r.last && (n - r.first) % r.stride == 0 then some ((n : Int) + r.shift).toNat
  else none

def moveCase (rs : Array CaseRun) (n : Nat) : Nat :=
  (rs.findSome? fun r => r.move? n).getD n

/-- Runs in which capitals and small letters take turns, runs without gaps, and single letters. -/
def caseRuns (alternating : List (Nat × Nat)) (whole : List (Nat × Nat × Int)) (single : List (Nat × Int)) :
    Array CaseRun :=
  (alternating.map (fun (first, last) => CaseRun.mk first last 2 1) ++
    whole.map (fun (first, last, shift) => CaseRun.mk first last 1 shift) ++
    single.map fun (n, shift) => CaseRun.mk n n 1 shift).toArray

def lowerRuns : Array CaseRun :=
  caseRuns
    [(256, 302), (306, 310), (313, 327), (330, 374), (377, 381), (386, 388), (391, 391), (395, 395), (401, 401),
    (408, 408), (416, 420), (423, 423), (428, 428), (431, 431), (435, 437), (440, 440), (444, 444), (453, 453),
    (456, 456), (459, 475), (478, 494), (498, 500), (504, 542), (546, 562), (571, 571), (577, 577), (582, 590),
    (880, 882), (886, 886), (984, 1006), (1015, 1015), (1018, 1018), (1120, 1152), (1162, 1214), (1217, 1229),
    (1232, 1326), (7680, 7828), (7840, 7934), (8579, 8579), (11360, 11360), (11367, 11371), (11378, 11378),
    (11381, 11381), (11392, 11490), (11499, 11501), (11506, 11506), (42560, 42604), (42624, 42650),
    (42786, 42798), (42802, 42862), (42873, 42875), (42878, 42886), (42891, 42891), (42896, 42898),
    (42902, 42920), (42932, 42946), (42951, 42953), (42960, 42960), (42966, 42968), (42997, 42997)]
    [(65, 90, 32), (192, 214, 32), (216, 222, 32), (393, 394, 205), (433, 434, 217), (904, 906, 37),
    (910, 911, 63), (913, 929, 32), (931, 939, 32), (1021, 1023, -130), (1024, 1039, 80), (1040, 1071, 32),
    (1329, 1366, 48), (4256, 4293, 7264), (5024, 5103, 38864), (5104, 5109, 8), (7312, 7354, -3008),
    (7357, 7359, -3008), (7944, 7951, -8), (7960, 7965, -8), (7976, 7983, -8), (7992, 7999, -8),
    (8008, 8013, -8), (8040, 8047, -8), (8072, 8079, -8), (8088, 8095, -8), (8104, 8111, -8), (8120, 8121, -8),
    (8122, 8123, -74), (8136, 8139, -86), (8152, 8153, -8), (8154, 8155, -100), (8168, 8169, -8),
    (8170, 8171, -112), (8184, 8185, -128), (8186, 8187, -126), (8544, 8559, 16), (9398, 9423, 26),
    (11264, 11311, 48), (11390, 11391, -10815), (65313, 65338, 32), (66560, 66599, 40), (66736, 66771, 40),
    (66928, 66938, 39), (66940, 66954, 39), (66956, 66962, 39), (66964, 66965, 39), (68736, 68786, 64),
    (71840, 71871, 32), (93760, 93791, 32), (125184, 125217, 34)]
    [(376, -121), (385, 210), (390, 206), (398, 79), (399, 202), (400, 203), (403, 205), (404, 207), (406, 211),
    (407, 209), (412, 211), (413, 213), (415, 214), (422, 218), (425, 218), (430, 218), (439, 219), (452, 2),
    (455, 2), (458, 2), (497, 2), (502, -97), (503, -56), (544, -130), (570, 10795), (573, -163), (574, 10792),
    (579, -195), (580, 69), (581, 71), (895, 116), (902, 38), (908, 64), (975, 8), (1012, -60), (1017, -7),
    (1216, 15), (4295, 7264), (4301, 7264), (7838, -7615), (8025, -8), (8027, -8), (8029, -8), (8031, -8),
    (8124, -9), (8140, -9), (8172, -7), (8188, -9), (8486, -7517), (8490, -8383), (8491, -8262), (8498, 28),
    (11362, -10743), (11363, -3814), (11364, -10727), (11373, -10780), (11374, -10749), (11375, -10783),
    (11376, -10782), (42877, -35332), (42893, -42280), (42922, -42308), (42923, -42319), (42924, -42315),
    (42925, -42305), (42926, -42308), (42928, -42258), (42929, -42282), (42930, -42261), (42931, 928),
    (42948, -48), (42949, -42307), (42950, -35384)]

def CaseRun.inverse (r : CaseRun) : CaseRun :=
  ⟨((r.first : Int) + r.shift).toNat, ((r.last : Int) + r.shift).toNat, r.stride, -r.shift⟩

/-- A small letter has the capital it comes from, except those that share it or have another one. -/
def upperRuns : Array CaseRun :=
  caseRuns [] [(7299, 7300, -6242), (8064, 8071, 0), (8080, 8087, 0), (8096, 8103, 0)]
    [(181, 743), (223, 0), (305, -232), (383, -300), (453, -1), (454, -2), (456, -1), (457, -2), (459, -1),
    (460, -2), (498, -1), (499, -2), (837, 84),
    (962, -31), (976, -62), (977, -57), (981, -47), (982, -54), (1008, -86), (1009, -80), (1013, -96),
    (7296, -6254), (7297, -6253), (7298, -6244), (7301, -6243), (7302, -6236), (7303, -6181), (7304, 35266),
    (7835, -59), (8115, 0), (8126, -7205), (8131, 0), (8179, 0)] ++
    lowerRuns.map (·.inverse)

def upperExpansions : List (Nat × List Nat) :=
  ([(8064, 7944), (8072, 7944), (8080, 7976), (8088, 7976), (8096, 8040), (8104, 8040)].flatMap fun (small, capital) =>
    (List.range 8).map fun i => (small + i, [capital + i, 921])) ++ [
  (223, [83, 83]), (329, [700, 78]), (496, [74, 780]), (912, [921, 776, 769]), (944, [933, 776, 769]),
  (1415, [1333, 1362]), (7830, [72, 817]), (7831, [84, 776]), (7832, [87, 778]), (7833, [89, 778]),
  (7834, [65, 702]), (8016, [933, 787]), (8018, [933, 787, 768]), (8020, [933, 787, 769]),
  (8022, [933, 787, 834]), (8114, [8122, 921]), (8115, [913, 921]), (8116, [902, 921]), (8118, [913, 834]),
  (8119, [913, 834, 921]), (8124, [913, 921]), (8130, [8138, 921]), (8131, [919, 921]), (8132, [905, 921]),
  (8134, [919, 834]), (8135, [919, 834, 921]), (8140, [919, 921]), (8146, [921, 776, 768]),
  (8147, [921, 776, 769]), (8150, [921, 834]), (8151, [921, 776, 834]), (8162, [933, 776, 768]),
  (8163, [933, 776, 769]), (8164, [929, 787]), (8166, [933, 834]), (8167, [933, 776, 834]), (8178, [8186, 921]),
  (8179, [937, 921]), (8180, [911, 921]), (8182, [937, 834]), (8183, [937, 834, 921]), (8188, [937, 921]),
  (64256, [70, 70]), (64257, [70, 73]), (64258, [70, 76]), (64259, [70, 70, 73]), (64260, [70, 70, 76]),
  (64261, [83, 84]), (64262, [83, 84]), (64275, [1348, 1350]), (64276, [1348, 1333]), (64277, [1348, 1339]),
  (64278, [1358, 1350]), (64279, [1348, 1341])]

def hasCase (c : Char) : Bool :=
  moveCase lowerRuns c.toNat != c.toNat || moveCase upperRuns c.toNat != c.toNat

/-- The text in small letters. A capital sigma that ends a word has a small form of its own, and a dotted
    capital i keeps its dot. -/
def lowerChars (before : Option Char) : List Char → List Char
  | [] => []
  | c :: rest =>
    let here :=
      if c.toNat == 0x3a3 then
        if before.any hasCase && !(rest.head?.any hasCase) then ['ς'] else ['σ']
      else if c.toNat == 0x130 then ['i', Char.ofNat 0x307]
      else [Char.ofNat (moveCase lowerRuns c.toNat)]
    here ++ lowerChars (some c) rest

def lower (s : String) : String :=
  String.ofList (lowerChars none s.toList)

def upper (s : String) : String :=
  String.ofList (s.toList.flatMap fun c =>
    match upperExpansions.find? (·.1 == c.toNat) with
    | some (_, cs) => cs.map Char.ofNat
    | none => [Char.ofNat (moveCase upperRuns c.toNat)])

end PineEngine.Text
