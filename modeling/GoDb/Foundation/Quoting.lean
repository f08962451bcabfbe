import GoDb.Foundation.SortedEntries
import Mathlib.Tactic.IntervalCases

/-! Quoted strings of bytes. The bytes are read as UTF-8: a string is a sequence of characters and
of bytes that belong to none. Each of these is written as it is or by an escape, and a reader that
undoes the escapes shows that two strings are never written alike, whatever follows them. -/
namespace GoDb.Foundation.Quoting

def continues (b : UInt8) : Prop := 0x80 ≤ b.toNat ∧ b.toNat ≤ 0xBF

instance (b : UInt8) : Decidable (continues b) := inferInstanceAs (Decidable (_ ∧ _))

def runeOfTwo (b₀ : UInt8) : List UInt8 → Option (Nat × Nat)
  | b₁::_ => if continues b₁ then some ((b₀.toNat - 0xC0) * 64 + (b₁.toNat - 0x80),2) else none
  | _ => none

/-- Neither a longer form of a shorter character nor a surrogate. -/
def runeOfThree (b₀ : UInt8) : List UInt8 → Option (Nat × Nat)
  | b₁::b₂::_ =>
    if continues b₁ ∧ (b₀.toNat = 0xE0 → 0xA0 ≤ b₁.toNat) ∧ (b₀.toNat = 0xED → b₁.toNat ≤ 0x9F) ∧ continues b₂ then
      some ((b₀.toNat - 0xE0) * 4096 + (b₁.toNat - 0x80) * 64 + (b₂.toNat - 0x80),3)
    else none
  | _ => none

/-- Neither a longer form of a shorter character nor one behind the last. -/
def runeOfFour (b₀ : UInt8) : List UInt8 → Option (Nat × Nat)
  | b₁::b₂::b₃::_ =>
    if continues b₁ ∧ (b₀.toNat = 0xF0 → 0x90 ≤ b₁.toNat) ∧ (b₀.toNat = 0xF4 → b₁.toNat ≤ 0x8F) ∧ continues b₂ ∧
        continues b₃ then
      some ((b₀.toNat - 0xF0) * 262144 + (b₁.toNat - 0x80) * 4096 + (b₂.toNat - 0x80) * 64 + (b₃.toNat - 0x80),4)
    else none
  | _ => none

/-- The character in front and its number of bytes. -/
def decodeRune : List UInt8 → Option (Nat × Nat)
  | [] => none
  | b₀::s =>
    if b₀.toNat < 0x80 then some (b₀.toNat,1)
    else if b₀.toNat < 0xC2 then none
    else if b₀.toNat < 0xE0 then runeOfTwo b₀ s
    else if b₀.toNat < 0xF0 then runeOfThree b₀ s
    else if b₀.toNat < 0xF5 then runeOfFour b₀ s
    else none

def encodeRune (r : Nat) : List UInt8 :=
  if r < 0x80 then [UInt8.ofNat r]
  else if r < 0x800 then [UInt8.ofNat (0xC0 + r / 64),UInt8.ofNat (0x80 + r % 64)]
  else if r < 0x10000 then [UInt8.ofNat (0xE0 + r / 4096),UInt8.ofNat (0x80 + r / 64 % 64),UInt8.ofNat (0x80 + r % 64)]
  else [UInt8.ofNat (0xF0 + r / 262144),UInt8.ofNat (0x80 + r / 4096 % 64),UInt8.ofNat (0x80 + r / 64 % 64),
    UInt8.ofNat (0x80 + r % 64)]

inductive Spells : Nat → List UInt8 → Prop
  | one {b₀ : UInt8} (small : b₀.toNat < 0x80) : Spells b₀.toNat [b₀]
  | two {b₀ b₁ : UInt8} (low : 0xC2 ≤ b₀.toNat) (high : b₀.toNat < 0xE0) (second : continues b₁) :
      Spells ((b₀.toNat - 0xC0) * 64 + (b₁.toNat - 0x80)) [b₀,b₁]
  | three {b₀ b₁ b₂ : UInt8} (low : 0xE0 ≤ b₀.toNat) (high : b₀.toNat < 0xF0) (second : continues b₁)
      (least : b₀.toNat = 0xE0 → 0xA0 ≤ b₁.toNat) (most : b₀.toNat = 0xED → b₁.toNat ≤ 0x9F) (third : continues b₂) :
      Spells ((b₀.toNat - 0xE0) * 4096 + (b₁.toNat - 0x80) * 64 + (b₂.toNat - 0x80)) [b₀,b₁,b₂]
  | four {b₀ b₁ b₂ b₃ : UInt8} (low : 0xF0 ≤ b₀.toNat) (high : b₀.toNat < 0xF5) (second : continues b₁)
      (least : b₀.toNat = 0xF0 → 0x90 ≤ b₁.toNat) (most : b₀.toNat = 0xF4 → b₁.toNat ≤ 0x8F) (third : continues b₂)
      (fourth : continues b₃) :
      Spells ((b₀.toNat - 0xF0) * 262144 + (b₁.toNat - 0x80) * 4096 + (b₂.toNat - 0x80) * 64 + (b₃.toNat - 0x80))
        [b₀,b₁,b₂,b₃]

variable {s : List UInt8} {r : Nat}

theorem spells_of_decodeRune {width : Nat} (decoded : decodeRune s = some (r,width)) :
    ∃ bytes rest, s = bytes ++ rest ∧ bytes.length = width ∧ Spells r bytes := by
  rcases s with _ | ⟨b₀,s⟩
  · cases decoded
  · rw [decodeRune] at decoded
    split_ifs at decoded with one bad two three four
    · cases decoded
      exact ⟨[b₀],s,rfl,rfl,.one one⟩
    · rcases s with _ | ⟨b₁,s⟩
      · cases decoded
      · rw [runeOfTwo] at decoded
        split_ifs at decoded with second
        obtain ⟨rfl,rfl⟩ := Prod.mk.inj (Option.some.inj decoded)
        exact ⟨[b₀,b₁],s,rfl,rfl,.two (Nat.not_lt.mp bad) two second⟩
    · rcases s with _ | ⟨b₁,_ | ⟨b₂,s⟩⟩
      · cases decoded
      · cases decoded
      · rw [runeOfThree] at decoded
        split_ifs at decoded with fits
        obtain ⟨second,least,most,third⟩ := fits
        obtain ⟨rfl,rfl⟩ := Prod.mk.inj (Option.some.inj decoded)
        exact ⟨[b₀,b₁,b₂],s,rfl,rfl,.three (Nat.not_lt.mp two) three second least most third⟩
    · rcases s with _ | ⟨b₁,_ | ⟨b₂,_ | ⟨b₃,s⟩⟩⟩
      · cases decoded
      · cases decoded
      · cases decoded
      · rw [runeOfFour] at decoded
        split_ifs at decoded with fits
        obtain ⟨second,least,most,third,fourth⟩ := fits
        obtain ⟨rfl,rfl⟩ := Prod.mk.inj (Option.some.inj decoded)
        exact ⟨[b₀,b₁,b₂,b₃],s,rfl,rfl,.four (Nat.not_lt.mp three) four second least most third fourth⟩

theorem decodeRune_of_spells {bytes : List UInt8} (spells : Spells r bytes) (rest : List UInt8) :
    decodeRune (bytes ++ rest) = some (r,bytes.length) := by
  cases spells with
  | one small => exact if_pos small
  | two low high second =>
    rw [List.cons_append,decodeRune,if_neg (by omega),if_neg (by omega),if_pos high]
    exact if_pos second
  | three low high second least most third =>
    rw [List.cons_append,decodeRune,if_neg (by omega),if_neg (by omega),if_neg (by omega),if_pos high]
    exact if_pos ⟨second,least,most,third⟩
  | four low high second least most third fourth =>
    rw [List.cons_append,decodeRune,if_neg (by omega),if_neg (by omega),if_neg (by omega),if_neg (by omega),if_pos high]
    exact if_pos ⟨second,least,most,third,fourth⟩

private theorem cons_ofNat {b : UInt8} {n : Nat} {t : List UInt8} (same : n = b.toNat) (rest : s = t) :
    UInt8.ofNat n::s = b::t := by
  rw [same,rest,UInt8.ofNat_toNat]

theorem encodeRune_of_spells {bytes : List UInt8} (spells : Spells r bytes) : encodeRune r = bytes := by
  cases spells with
  | one small => rw [encodeRune,if_pos small,UInt8.ofNat_toNat]
  | two low high second =>
    obtain ⟨low₁,high₁⟩ := second
    rw [encodeRune,if_neg (by omega),if_pos (by omega)]
    exact cons_ofNat (by omega) (cons_ofNat (by omega) rfl)
  | three low high second least most third =>
    obtain ⟨low₁,high₁⟩ := second
    obtain ⟨low₂,high₂⟩ := third
    rw [encodeRune,if_neg (by omega),if_neg (by omega),if_pos (by omega)]
    exact cons_ofNat (by omega) (cons_ofNat (by omega) (cons_ofNat (by omega) rfl))
  | four low high second least most third fourth =>
    obtain ⟨low₁,high₁⟩ := second
    obtain ⟨low₂,high₂⟩ := third
    obtain ⟨low₃,high₃⟩ := fourth
    rw [encodeRune,if_neg (by omega),if_neg (by omega),if_neg (by omega)]
    exact cons_ofNat (by omega) (cons_ofNat (by omega) (cons_ofNat (by omega) (cons_ofNat (by omega) rfl)))

inductive Piece
  | rune (r : Nat)
  | broken (b : UInt8)
  deriving DecidableEq

/-- The pieces behind the first bytes, which belong to a character already met. -/
def piecesFrom : Nat → List UInt8 → List Piece
  | _,[] => []
  | skip + 1,_::s => piecesFrom skip s
  | 0,b::s =>
    match decodeRune (b::s) with
    | none => .broken b::piecesFrom 0 s
    | some (r,width) => .rune r::piecesFrom (width - 1) s

def hexDigit (d : Nat) : UInt8 := UInt8.ofNat (if d < 10 then 48 + d else 87 + d)

def hex : Nat → Nat → List UInt8
  | 0,_ => []
  | width + 1,n => hex width (n / 16) ++ [hexDigit (n % 16)]

def escapes : List (Nat × UInt8) := [(7,97),(8,98),(12,102),(10,110),(13,114),(9,116),(11,118)]

section Quote

variable (isPrint : Nat → Bool)

def escape : Piece → List UInt8
  | .broken b => 92::120::hex 2 b.toNat
  | .rune r =>
    if r = 34 ∨ r = 92 then [92,UInt8.ofNat r]
    else if isPrint r then encodeRune r
    else
      match escapes.lookup r with
      | some c => [92,c]
      | none =>
        if r < 32 ∨ r = 127 then 92::120::hex 2 r
        else if r < 0x10000 then 92::117::hex 4 r
        else 92::85::hex 8 r

def quote (s : List UInt8) : List UInt8 := 34::(piecesFrom 0 s).flatMap (escape isPrint) ++ [34]

end Quote

def Piece.bytes : Piece → List UInt8
  | .rune r => encodeRune r
  | .broken b => [b]

theorem Spells.cons {bytes : List UInt8} (spells : Spells r bytes) : ∃ b rest, bytes = b::rest := by
  cases spells <;> exact ⟨_,_,rfl⟩

theorem bytes_piecesFrom (s : List UInt8) (skip : Nat) : (piecesFrom skip s).flatMap Piece.bytes = s.drop skip := by
  induction s generalizing skip with
  | nil => cases skip <;> rfl
  | cons b s ih =>
    cases skip with
    | succ skip => exact ih skip
    | zero =>
      rw [piecesFrom,List.drop_zero]
      cases decoded : decodeRune (b::s) with
      | none => exact congrArg (b::·) (ih 0)
      | some found =>
        obtain ⟨r,width⟩ := found
        obtain ⟨bytes,rest,eq,rfl,spells⟩ := spells_of_decodeRune decoded
        dsimp only
        rw [List.flatMap_cons,ih,Piece.bytes,encodeRune_of_spells spells]
        obtain ⟨c,bytes,rfl⟩ := spells.cons
        obtain ⟨rfl,rfl⟩ := List.cons.inj eq
        exact congrArg (b::bytes ++ ·) List.drop_left

def Piece.Read : Piece → Prop
  | .rune r => ∃ bytes, Spells r bytes
  | .broken b => 0x80 ≤ b.toNat

theorem read_piecesFrom (s : List UInt8) (skip : Nat) : ∀ piece ∈ piecesFrom skip s, piece.Read := by
  induction s generalizing skip with
  | nil => cases skip <;> exact List.forall_mem_nil _
  | cons b s ih =>
    cases skip with
    | succ skip => exact ih skip
    | zero =>
      rw [piecesFrom]
      cases decoded : decodeRune (b::s) with
      | none =>
        have large : 0x80 ≤ b.toNat := by
          by_contra small
          rw [decodeRune,if_pos (Nat.not_le.mp small)] at decoded
          cases decoded
        exact List.forall_mem_cons.mpr ⟨large,ih 0⟩
      | some found =>
        obtain ⟨r,width⟩ := found
        obtain ⟨bytes,-,-,-,spells⟩ := spells_of_decodeRune decoded
        exact List.forall_mem_cons.mpr ⟨⟨bytes,spells⟩,ih _⟩

def hexValue (c : UInt8) : Nat := if c.toNat < 58 then c.toNat - 48 else c.toNat - 87

def unhex (s : List UInt8) : Nat := s.foldl (fun n c => n * 16 + hexValue c) 0

theorem hexValue_hexDigit {d : Nat} (small : d < 16) : hexValue (hexDigit d) = d := by
  interval_cases d <;> rfl

theorem length_hex (width n : Nat) : (hex width n).length = width := by
  induction width generalizing n with
  | zero => rfl
  | succ width ih => rw [hex,List.length_append,ih,List.length_singleton]

theorem unhex_hex {width n : Nat} (small : n < 16^width) : unhex (hex width n) = n := by
  induction width generalizing n with
  | zero => exact (Nat.lt_one_iff.mp small).symm
  | succ width ih =>
    have front : n / 16 < 16^width := by
      rw [Nat.pow_succ] at small
      exact Nat.div_lt_of_lt_mul (by omega)
    have digit : n % 16 < 16 := Nat.mod_lt n (by omega)
    rw [hex,unhex,List.foldl_append]
    change unhex (hex width (n / 16)) * 16 + hexValue (hexDigit (n % 16)) = n
    rw [ih front,hexValue_hexDigit digit]
    omega

def readEscape (c : UInt8) : Option Nat :=
  if c = 34 ∨ c = 92 then some c.toNat else (escapes.find? (·.2 == c)).map Prod.fst

def readPiece : List UInt8 → Option (Piece × List UInt8)
  | [] => none
  | 92::120::s =>
    let n := unhex (s.take 2)
    some (if n < 0x80 then .rune n else .broken (UInt8.ofNat n),s.drop 2)
  | 92::117::s => some (.rune (unhex (s.take 4)),s.drop 4)
  | 92::85::s => some (.rune (unhex (s.take 8)),s.drop 8)
  | 92::c::s => (readEscape c).map fun r => (.rune r,s)
  | b::s => if b = 34 then none else (decodeRune (b::s)).map fun found => (.rune found.1,(b::s).drop found.2)

theorem Spells.lt {bytes : List UInt8} (spells : Spells r bytes) : r < 16^8 := by
  cases spells with
  | one small => omega
  | two _ high second => have := second.2; omega
  | three _ high second _ _ third => have := second.2; have := third.2; omega
  | four _ high second _ _ third fourth => have := second.2; have := third.2; have := fourth.2; omega

theorem Spells.head_ne {b : UInt8} {bytes : List UInt8} (spells : Spells r (b::bytes)) {c : UInt8}
    (small : c.toNat < 0x80) (other : r ≠ c.toNat) : b ≠ c := by
  rintro rfl
  cases spells with
  | one => exact other rfl
  | two low => omega
  | three low => omega
  | four low => omega

theorem unhex_take {width n : Nat} (small : n < 16^width) (rest : List UInt8) :
    unhex ((hex width n ++ rest).take width) = n := by
  rw [List.take_left' (length_hex width n),unhex_hex small]

theorem drop_hex (width n : Nat) (rest : List UInt8) : (hex width n ++ rest).drop width = rest :=
  List.drop_left' (length_hex width n)

theorem readEscape_escapes {c : UInt8} (found : escapes.lookup r = some c) (rest : List UInt8) :
    readPiece (92::c::rest) = some (.rune r,rest) := by
  have member := SortedEntries.mem_of_lookup found
  simp only [escapes,List.mem_cons,Prod.mk.injEq,List.not_mem_nil,or_false] at member
  rcases member with ⟨rfl,rfl⟩ | ⟨rfl,rfl⟩ | ⟨rfl,rfl⟩ | ⟨rfl,rfl⟩ | ⟨rfl,rfl⟩ | ⟨rfl,rfl⟩ | ⟨rfl,rfl⟩ <;> rfl

theorem readPiece_bytes {bytes : List UInt8} (spells : Spells r bytes) (plain : ¬(r = 34 ∨ r = 92))
    (rest : List UInt8) : readPiece (bytes ++ rest) = some (.rune r,rest) := by
  have decoded := decodeRune_of_spells spells rest
  obtain ⟨b,bytes,rfl⟩ := spells.cons
  have quote : b ≠ 34 := spells.head_ne (by decide) fun same => plain (.inl same)
  have slash : b ≠ 92 := spells.head_ne (by decide) fun same => plain (.inr same)
  rw [List.cons_append] at decoded ⊢
  rw [readPiece,if_neg quote,decoded,Option.map_some,← List.cons_append,List.drop_left]
  -- The escapes all begin with a backslash.
  · exact fun _ same _ => slash same
  · exact fun _ same _ => slash same
  · exact fun _ same _ => slash same
  · exact fun _ _ same _ => slash same

theorem readPiece_escape (isPrint : Nat → Bool) {piece : Piece} (read : piece.Read) (rest : List UInt8) :
    readPiece (escape isPrint piece ++ rest) = some (piece,rest) := by
  cases piece with
  | broken b =>
    have large : ¬b.toNat < 0x80 := Nat.not_lt.mpr read
    rw [escape,List.cons_append,List.cons_append,readPiece]
    rw [unhex_take b.toNat_lt,drop_hex,if_neg large,UInt8.ofNat_toNat]
  | rune r =>
    obtain ⟨bytes,spells⟩ := read
    rw [escape]
    by_cases quoted : r = 34 ∨ r = 92
    · rw [if_pos quoted]
      rcases quoted with rfl | rfl <;> rfl
    rw [if_neg quoted]
    by_cases printed : isPrint r = true
    · rw [if_pos printed,encodeRune_of_spells spells]
      exact readPiece_bytes spells quoted rest
    rw [if_neg printed]
    cases found : escapes.lookup r with
    | some c => exact readEscape_escapes found rest
    | none =>
      dsimp only
      split_ifs with control short
      · rw [List.cons_append,List.cons_append,readPiece]
        rw [unhex_take (by omega),drop_hex,if_pos (by omega)]
      · rw [List.cons_append,List.cons_append,readPiece]
        rw [unhex_take (by omega),drop_hex]
      · rw [List.cons_append,List.cons_append,readPiece]
        rw [unhex_take spells.lt,drop_hex]

theorem flatMap_escape_inj (isPrint : Nat → Bool) {pieces pieces' : List Piece} (read : ∀ piece ∈ pieces, piece.Read)
    (read' : ∀ piece ∈ pieces', piece.Read) {rest rest' : List UInt8}
    (same : pieces.flatMap (escape isPrint) ++ 34::rest = pieces'.flatMap (escape isPrint) ++ 34::rest') :
    pieces = pieces' ∧ rest = rest' := by
  induction pieces generalizing pieces' with
  | nil =>
    cases pieces' with
    | nil => exact ⟨rfl,(List.cons.inj same).2⟩
    | cons piece' pieces' =>
      have parsed := congrArg readPiece same
      rw [List.flatMap_cons,List.append_assoc,readPiece_escape isPrint (read' _ List.mem_cons_self)] at parsed
      cases parsed
  | cons piece pieces ih =>
    obtain ⟨here,later⟩ := List.forall_mem_cons.mp read
    have parsed := congrArg readPiece same
    rw [List.flatMap_cons,List.append_assoc,readPiece_escape isPrint here] at parsed
    cases pieces' with
    | nil => cases parsed
    | cons piece' pieces' =>
      obtain ⟨here',later'⟩ := List.forall_mem_cons.mp read'
      rw [List.flatMap_cons,List.append_assoc,readPiece_escape isPrint here'] at parsed
      obtain ⟨rfl,tails⟩ := Prod.mk.inj (Option.some.inj parsed)
      obtain ⟨rfl,rests⟩ := ih later later' tails
      exact ⟨rfl,rests⟩

theorem quote_append_inj (isPrint : Nat → Bool) {t rest rest' : List UInt8}
    (same : quote isPrint s ++ rest = quote isPrint t ++ rest') : s = t ∧ rest = rest' := by
  unfold quote at same
  simp only [List.cons_append,List.append_assoc,List.nil_append,List.cons.injEq,true_and] at same
  obtain ⟨pieces,rests⟩ := flatMap_escape_inj isPrint (read_piecesFrom s 0) (read_piecesFrom t 0) same
  have bytes := congrArg (List.flatMap Piece.bytes) pieces
  rw [bytes_piecesFrom,bytes_piecesFrom] at bytes
  exact ⟨bytes,rests⟩

end GoDb.Foundation.Quoting
