import GoDb.Query
import GoDb.Scanning
import Mathlib.Data.List.TakeWhile

/-! How `Execute` splits a request into statements. `splitStatements` looks for quotes and
semicolons on its own, without `Lex`, and without the backslashes that `Lex` knows. -/
namespace GoDb
open Foundation

/-- The characters for which `unicode.IsSpace` holds, in UTF-8. -/
def spaceRunes : List Bytes :=
  [[9],[10],[11],[12],[13],[32],[0xC2,0x85],[0xC2,0xA0],[0xE1,0x9A,0x80],[0xE2,0x80,0x80],[0xE2,0x80,0x81],
    [0xE2,0x80,0x82],[0xE2,0x80,0x83],[0xE2,0x80,0x84],[0xE2,0x80,0x85],[0xE2,0x80,0x86],[0xE2,0x80,0x87],
    [0xE2,0x80,0x88],[0xE2,0x80,0x89],[0xE2,0x80,0x8A],[0xE2,0x80,0xA8],[0xE2,0x80,0xA9],[0xE2,0x80,0xAF],
    [0xE2,0x81,0x9F],[0xE3,0x80,0x80]]

/-- The first of these texts with which the bytes begin is taken off, as often as there is one. -/
def stripAll (runes : List Bytes) : Nat → Bytes → Bytes
  | 0,s => s
  | turns+1,s =>
    match runes.find? fun rune => rune.isPrefixOf s with
    | none => s
    | some rune => stripAll runes turns (s.drop rune.length)

/-- `strings.TrimSpace`. A character of UTF-8 is recognised from its end as well as from its beginning. -/
def trimSpaceUtf8 (s : Bytes) : Bytes :=
  let left := stripAll spaceRunes s.length s
  (stripAll (spaceRunes.map List.reverse) left.length left.reverse).reverse

def trackQuote (quote : Option UInt8) (c : UInt8) : Option UInt8 :=
  match quote with
  | some q => if c = q then none else some q
  | none => if c = 39 ∨ c = 34 then some c else none

def keptPiece (piece : Bytes) : List Bytes := if trimSpaceUtf8 piece = [] then [] else [trimSpaceUtf8 piece]

/-- The loop of `splitStatements`, with the bytes since the last semicolon. -/
def splitFrom (quote : Option UInt8) (piece : Bytes) : Bytes → List Bytes
  | [] => keptPiece piece
  | c::s =>
    if quote = none ∧ c = 59 then keptPiece piece ++ splitFrom none [] s
    else splitFrom (trackQuote quote c) (piece ++ [c]) s

def splitStatements (s : Bytes) : List Bytes := splitFrom none [] s

variable {c b : UInt8} {s rest w : Bytes} {t : Token} {body : List Token} {quote : Option UInt8}

namespace Lexer

def isSemicolon (t : Token) : Bool := t.type = .semicolon

/-- The runs of tokens between the semicolons, as far as they are not empty. `Lex` ends its tokens with EOF. -/
def statementRuns (tokens : List Token) : List (List Token) := (tokens.dropLast.splitOnP isSemicolon).filter (· ≠ [])

/-- Inside of a string no backslash stands before the quote of the string, and outside there is neither of the bytes
0x85 and 0xA0, which `Lex` takes for spaces and UTF-8 does not. -/
def clean : Option UInt8 → Bytes → Bool
  | _,[] => true
  | none,c::s => if c = 39 ∨ c = 34 then clean (some c) s else c != 0x85 && c != 0xA0 && clean none s
  | some q,c::s =>
    if c = q then clean none s
    else if c = 92 then
      match s with
      | [] => true
      | d::s => d != q && clean (some q) s
    else clean (some q) s

def plainByte (c : UInt8) : Bool :=
  (c < 128 || isWordByte c) && c != 34 && c != 39 && c != 59 && !GoDb.isSpace c

inductive TokenText : UInt8 → Bytes → Token → Prop
  | semicolon : TokenText 59 [] ⟨.semicolon,ascii ";"⟩
  | literal {q : UInt8} {raw text : Bytes} (quote : q = 39 ∨ q = 34) (free : q ∉ raw) :
    TokenText q (raw ++ [q]) ⟨.string,text⟩
  | plain {c : UInt8} {w : Bytes} {t : Token} (other : t.type ≠ .semicolon) (all : ∀ d ∈ c::w, plainByte d = true) :
    TokenText c w t

/-- A text that both scanners read alike, and its tokens. -/
inductive Tidy : Bytes → List Token → Prop
  | nil : Tidy [] []
  | space {c : UInt8} {s : Bytes} {body : List Token} (is : GoDb.isSpace c = true) (rest : Tidy s body) : Tidy (c::s) body
  | token {c : UInt8} {w rest : Bytes} {t : Token} {body : List Token} (space : isSpace c = false)
    (found : ∀ n, next n c (w ++ rest) = .ok (numbered n t,rest)) (text : TokenText c w t) (later : Tidy rest body) :
    Tidy (c::(w ++ rest)) (t::body)

theorem isSpace_of_space (is : GoDb.isSpace c = true) : isSpace c = true := by
  unfold GoDb.isSpace at is
  unfold isSpace
  rcases Bool.or_eq_true_iff.mp is with blank | control
  · simp [blank]
  · simp [control]

theorem space_of_isSpace (is : isSpace c = true) (first : c ≠ 0x85) (second : c ≠ 0xA0) : GoDb.isSpace c = true := by
  unfold isSpace at is
  unfold GoDb.isSpace
  simp only [decide_eq_false first,decide_eq_false second,Bool.or_false] at is
  rw [Bool.or_comm]
  exact is

theorem word_plain (is : isWordByte c = true) : plainByte c = true := by
  have space : GoDb.isSpace c = false := by
    by_contra other
    have wide := isSpace_of_space (Bool.not_eq_false _ ▸ other)
    rw [word_space is] at wide
    cases wide
  simp [plainByte,is,space,word_ne is (show isWordByte 34 = false from rfl),word_ne is (show isWordByte 39 = false from rfl),
    word_ne is (show isWordByte 59 = false from rfl)]

theorem number_plain (is : isNumberByte c = true) : plainByte c = true := by
  apply word_plain
  unfold isNumberByte at is
  rcases Bool.or_eq_true_iff.mp is with digit | point
  · exact (digit_word digit).2
  · rw [of_decide_eq_true point]
    rfl

theorem takeWhile_plain {p : UInt8 → Bool} (plain : ∀ c, p c = true → plainByte c = true) (s : Bytes) :
    ∀ c ∈ s.takeWhile p, plainByte c = true := fun c there => plain c (List.mem_takeWhile_imp there)

theorem quoted_raw {q : UInt8} {text : Bytes} (found : quoted q s = some (text,rest)) (is : clean (some q) s = true) :
    ∃ raw, s = raw ++ [q] ++ rest ∧ q ∉ raw ∧ clean none rest = true := by
  fun_induction quoted q s generalizing text rest with
  | case1 => cases found
  | case2 s =>
    obtain ⟨-,rfl⟩ := Prod.mk.inj (Option.some.inj found)
    rw [clean.eq_def] at is
    dsimp only at is
    rw [if_pos rfl] at is
    exact ⟨[],rfl,List.not_mem_nil,is⟩
  | case3 => cases found
  | case4 d s other ih =>
    obtain ⟨⟨text,rest⟩,inner,same⟩ := Option.map_eq_some_iff.mp found
    obtain ⟨-,rfl⟩ := Prod.mk.inj same
    rw [clean,if_neg other,if_pos rfl,Bool.and_eq_true,bne_iff_ne] at is
    obtain ⟨raw,split,free,after⟩ := ih inner is.2
    refine ⟨92::d::raw,by rw [split]; rfl,?_,after⟩
    simp [free,Ne.symm other,is.1.symm]
  | case5 c s other plain ih =>
    obtain ⟨⟨text,rest⟩,inner,same⟩ := Option.map_eq_some_iff.mp found
    obtain ⟨-,rfl⟩ := Prod.mk.inj same
    rw [clean.eq_def] at is
    dsimp only at is
    rw [if_neg other,if_neg plain] at is
    obtain ⟨raw,split,free,after⟩ := ih inner is
    refine ⟨c::raw,by rw [split]; rfl,?_,after⟩
    simp [free,Ne.symm other]

theorem clean_plain (all : ∀ d ∈ w, plainByte d = true) : clean none (w ++ s) = clean none s := by
  induction w with
  | nil => rfl
  | cons c w ih =>
    obtain ⟨here,others⟩ := List.forall_mem_cons.mp all
    simp only [plainByte,Bool.and_eq_true,bne_iff_ne,ne_eq] at here
    obtain ⟨⟨⟨⟨usual,double⟩,single⟩,-⟩,-⟩ := here
    have bytes : c ≠ 0x85 ∧ c ≠ 0xA0 := by
      constructor
      all_goals
        rintro rfl
        exact absurd usual (by decide)
    rw [List.cons_append,clean,if_neg (by simp [single,double]),ih others]
    simp [bytes.1,bytes.2]

theorem symbol_text (found : symbol c = some t) : TokenText c [] t := by
  unfold symbol at found
  split_ifs at found with is is is is is is <;> obtain rfl := Option.some.inj found <;> rw [is]
  · exact .plain (by decide) (List.forall_mem_singleton.mpr rfl)
  · exact .plain (by decide) (List.forall_mem_singleton.mpr rfl)
  · exact .plain (by decide) (List.forall_mem_singleton.mpr rfl)
  · exact .plain (by decide) (List.forall_mem_singleton.mpr rfl)
  · exact .semicolon
  · exact .plain (by decide) (List.forall_mem_singleton.mpr rfl)

theorem comparison_text (known : c = 33 ∨ c = 60 ∨ c = 62) (found : comparison c s = .ok (t,rest)) :
    ∃ w, s = w ++ rest ∧ TokenText c w t := by
  unfold comparison at found
  split at found
  · obtain ⟨rfl,rfl⟩ := Prod.mk.inj (Except.ok.inj found)
    refine ⟨[61],rfl,.plain ?_ ?_⟩
    · rcases known with rfl | rfl | rfl <;> exact nofun
    · refine List.forall_mem_cons.mpr ⟨?_,List.forall_mem_singleton.mpr rfl⟩
      rcases known with rfl | rfl | rfl <;> rfl
  · rcases known with rfl | rfl | rfl
    · cases found
    · obtain ⟨rfl,rfl⟩ := Prod.mk.inj (Except.ok.inj found)
      exact ⟨[],rfl,.plain (by decide) (List.forall_mem_singleton.mpr rfl)⟩
    · obtain ⟨rfl,rfl⟩ := Prod.mk.inj (Except.ok.inj found)
      exact ⟨[],rfl,.plain (by decide) (List.forall_mem_singleton.mpr rfl)⟩

theorem next_text {n : Nat} (found : next n c s = .ok (t,rest)) (is : clean none (c::s) = true) :
    ∃ w, s = w ++ rest ∧ TokenText c w t := by
  cases next_turn found with
  | number minus =>
    refine ⟨s.takeWhile isNumberByte,List.takeWhile_append_dropWhile.symm,.plain nofun ?_⟩
    rw [minus]
    exact List.forall_mem_cons.mpr ⟨by decide,takeWhile_plain (fun _ => number_plain) s⟩
  | parameter mark => exact ⟨[],rfl,.plain nofun (List.forall_mem_singleton.mpr (mark ▸ rfl))⟩
  | symbol there => exact ⟨[],rfl,symbol_text there⟩
  | comparison known there => exact comparison_text known there
  | string quote there =>
    rw [clean,if_pos quote] at is
    obtain ⟨raw,split,free,-⟩ := quoted_raw there is
    exact ⟨raw ++ [c],split,.literal quote free⟩
  | word first =>
    refine ⟨s.takeWhile isWordByte,List.takeWhile_append_dropWhile.symm,.plain ?_ ?_⟩
    · dsimp only
      unfold wordType
      split_ifs <;> decide
    · exact List.forall_mem_cons.mpr ⟨word_plain first,takeWhile_plain (fun _ => word_plain) s⟩

theorem clean_literal {q : UInt8} {raw : Bytes} (free : q ∉ raw) (is : clean (some q) (raw ++ [q] ++ rest) = true) :
    clean none rest = true := by
  induction size : raw.length using Nat.strong_induction_on generalizing raw with
  | _ n ih =>
    subst size
    rcases raw with _ | ⟨c,raw⟩
    · rw [List.nil_append,List.singleton_append,clean.eq_def] at is
      dsimp only at is
      rwa [if_pos rfl] at is
    · obtain ⟨other,free⟩ := not_or.mp (mt List.mem_cons.mpr free)
      rw [List.cons_append,List.cons_append,clean.eq_def] at is
      dsimp only at is
      rw [if_neg (Ne.symm other)] at is
      split_ifs at is
      · -- A backslash before the quote is what a clean text has not.
        rcases raw with _ | ⟨d,raw⟩
        · simp at is
        · obtain ⟨-,free⟩ := not_or.mp (mt List.mem_cons.mpr free)
          simp only [List.cons_append,Bool.and_eq_true] at is
          exact ih raw.length (by rw [List.length_cons,List.length_cons]; omega) free is.2 rfl
      · exact ih raw.length (by simp) free is rfl

theorem clean_text (text : TokenText c w t) (is : clean none (c::(w ++ rest)) = true) : clean none rest = true := by
  cases text with
  | semicolon =>
    rw [clean,if_neg (by decide),Bool.and_eq_true] at is
    exact is.2
  | literal quote free =>
    rw [clean,if_pos quote] at is
    exact clean_literal free is
  | plain other all =>
    have same := clean_plain (s := rest) all
    rw [List.cons_append] at same
    rwa [same] at is

theorem TokenText.of_numbered {n : Nat} (text : TokenText c w (numbered n t)) : TokenText c w t := by
  unfold numbered at text
  split_ifs at text with is
  · cases text with
    | plain _ all => exact .plain (by rw [is]; decide) all
  · exact text

theorem Scans.tidy (scans : Scans s body) (is : clean none s = true) : Tidy s body := by
  induction scans with
  | nil => exact .nil
  | @space c s body space _ ih =>
    have blank : ¬(c = 39 ∨ c = 34) := by
      rintro (rfl | rfl)
      · cases space
      · cases space
    rw [clean,if_neg blank,Bool.and_eq_true,Bool.and_eq_true,bne_iff_ne,bne_iff_ne] at is
    exact .space (space_of_isSpace space is.1.1 is.1.2) (ih is.2)
  | token space found _ ih =>
    obtain ⟨w,rfl,text⟩ := next_text (found 0) is
    exact .token space found text.of_numbered (ih (clean_text text is))

theorem Tidy.scans (tidy : Tidy s body) : Scans s body := by
  induction tidy with
  | nil => exact .nil
  | space is _ ih => exact .space (isSpace_of_space is) ih
  | token space found _ _ ih => exact .token space found ih

theorem Tidy.lex (tidy : Tidy s body) : lex s = .ok (renumber 0 body ++ [⟨.eof,[]⟩]) := tidy.scans.lex

/-- The pieces between the semicolons outside of quotes. -/
def parts (quote : Option UInt8) : Bytes → List Bytes
  | [] => [[]]
  | c::s =>
    if quote = none ∧ c = 59 then []::parts none s else (parts (trackQuote quote c) s).modifyHead (c::·)

theorem parts_ne_nil (quote : Option UInt8) (s : Bytes) : parts quote s ≠ [] := by
  induction s generalizing quote with
  | nil => exact List.cons_ne_nil _ _
  | cons c s ih =>
    unfold parts
    split_ifs
    · exact List.cons_ne_nil _ _
    · simpa using ih (trackQuote quote c)

theorem splitFrom_parts (quote : Option UInt8) (piece s : Bytes) :
    splitFrom quote piece s = ((parts quote s).modifyHead (piece ++ ·)).flatMap keptPiece := by
  induction s generalizing quote piece with
  | nil => simp [splitFrom,parts]
  | cons c s ih =>
    unfold splitFrom parts
    split_ifs
    · rw [ih]
      simp only [List.modifyHead_cons,List.append_nil,List.flatMap_cons,List.nil_append]
      congr 1
      cases parts none s <;> rfl
    · rw [ih,List.modifyHead_modifyHead]
      congr 2
      funext first
      simp

theorem splitStatements_parts (s : Bytes) : splitStatements s = (parts none s).flatMap keptPiece := by
  rw [splitStatements,splitFrom_parts]
  cases parts none s <;> rfl

theorem parts_first {first : Bytes} {others : List Bytes} (split : parts quote s = first::others) :
    ∃ tail, s = first ++ tail ∧ Boundary tail := by
  induction s generalizing quote first others with
  | nil =>
    obtain ⟨rfl,-⟩ := List.cons.inj split
    exact ⟨[],rfl,boundary_nil⟩
  | cons c s ih =>
    unfold parts at split
    split_ifs at split with ends
    · obtain ⟨rfl,-⟩ := List.cons.inj split
      exact ⟨c::s,rfl,boundary_cons (by rw [ends.2]; decide)⟩
    · obtain ⟨piece,rest,same⟩ := List.exists_cons_of_ne_nil (parts_ne_nil (trackQuote quote c) s)
      rw [same] at split
      obtain ⟨rfl,-⟩ := List.cons.inj split
      obtain ⟨tail,rfl,boundary⟩ := ih same
      exact ⟨tail,rfl,boundary⟩

theorem parts_stay (stay : ∀ d ∈ w, trackQuote quote d = quote ∧ ¬(quote = none ∧ d = 59)) (s : Bytes) :
    parts quote (w ++ s) = (parts quote s).modifyHead (w ++ ·) := by
  induction w with
  | nil =>
    change parts quote s = (parts quote s).modifyHead id
    rw [List.modifyHead_id,id]
  | cons c w ih =>
    obtain ⟨⟨same,inside⟩,others⟩ := List.forall_mem_cons.mp stay
    rw [List.cons_append,parts,if_neg inside,same,ih others,List.modifyHead_modifyHead]
    rfl

theorem parts_cons (inside : ¬(quote = none ∧ c = 59)) (s : Bytes) :
    parts quote (c::s) = (parts (trackQuote quote c) s).modifyHead (c::·) := by
  rw [parts,if_neg inside]

theorem parts_text (text : TokenText c w t) (other : t.type ≠ .semicolon) (rest : Bytes) :
    parts none (c::(w ++ rest)) = (parts none rest).modifyHead (c::w ++ ·) := by
  cases text with
  | semicolon => exact absurd rfl other
  | @literal q raw text quote free =>
    have opens : trackQuote none c = some c := if_pos quote
    have closes : trackQuote (some c) c = none := if_pos rfl
    have stay : ∀ d ∈ raw, trackQuote (some c) d = some c ∧ ¬(some c = none ∧ d = 59) := by
      intro d there
      refine ⟨if_neg ?_,by simp⟩
      rintro rfl
      exact free there
    rw [parts_cons (by rintro ⟨-,rfl⟩; simp at quote),opens,List.append_assoc,parts_stay stay,List.singleton_append,
      parts_cons (by simp),closes,List.modifyHead_modifyHead,List.modifyHead_modifyHead]
    congr 1
    funext first
    simp
  | plain _ all =>
    rw [← List.cons_append]
    apply parts_stay
    intro d there
    have plain := all d there
    simp only [plainByte,Bool.and_eq_true,bne_iff_ne,ne_eq] at plain
    obtain ⟨⟨⟨⟨-,double⟩,single⟩,mark⟩,-⟩ := plain
    exact ⟨if_neg (by simp [single,double]),fun both => mark both.2⟩

theorem modifyHead_forall₂ {α β : Type} {R : α → β → Prop} {f : α → α} {g : β → β} {as : List α} {bs : List β}
    (related : List.Forall₂ R as bs) (heads : ∀ a rest b others, as = a::rest → bs = b::others → R a b → R (f a) (g b)) :
    List.Forall₂ R (as.modifyHead f) (bs.modifyHead g) := by
  cases related with
  | nil => exact .nil
  | cons first others => exact .cons (heads _ _ _ _ rfl rfl first) others

theorem Tidy.parts (tidy : Tidy s body) : List.Forall₂ Tidy (Lexer.parts none s) (body.splitOnP isSemicolon) := by
  induction tidy with
  | nil => exact .cons .nil .nil
  | @space c s body is rest ih =>
    have blank : c ≠ 59 ∧ ¬(c = 39 ∨ c = 34) := by
      refine ⟨?_,?_⟩
      · rintro rfl
        cases is
      · rintro (rfl | rfl)
        · cases is
        · cases is
    rw [parts_cons fun both => blank.1 both.2,show trackQuote none c = none from if_neg blank.2]
    have same : body.splitOnP isSemicolon = (body.splitOnP isSemicolon).modifyHead id := by rw [List.modifyHead_id,id]
    rw [same]
    exact modifyHead_forall₂ ih fun _ _ _ _ _ _ piece => .space is piece
  | @token c w rest t body space found text later ih =>
    by_cases mark : t.type = .semicolon
    · cases text with
      | semicolon => exact .cons .nil ih
      | literal => cases mark
      | plain other => exact absurd mark other
    · rw [parts_text text mark,List.splitOnP_cons_eq_if_modifyHead,if_neg (by simpa [isSemicolon] using mark)]
      refine modifyHead_forall₂ ih fun first others run runs split _ piece => ?_
      obtain ⟨tail,rfl,boundary⟩ := parts_first split
      refine .token space (fun n => (next_append boundary).mp ?_) text piece
      rw [List.append_assoc]
      exact found n

def usual (c : UInt8) : Bool := c < 128 || isWordByte c

/-- A space of one byte, or a character that begins with a byte above ASCII, and goes on with one that stands in
strings only. -/
def runeShape : Bytes → Bool
  | [] => false
  | [c] => GoDb.isSpace c
  | c::d::_ => 128 ≤ c && !usual d

def runeEnd : Bytes → Bool
  | [] => false
  | [c] => GoDb.isSpace c
  | c::_::_ => !usual c

theorem space_usual (is : GoDb.isSpace c = true) : usual c = true := by
  simp only [GoDb.isSpace,Bool.or_eq_true,Bool.and_eq_true,decide_eq_true_eq] at is
  rcases is with rfl | ⟨-,most⟩
  · rfl
  · have small : c < 128 := lt_of_le_of_lt most (by decide)
    simp [usual,small]

theorem plain_usual (is : plainByte c = true) : usual c = true := by
  simp only [plainByte,Bool.and_eq_true] at is
  exact is.1.1.1.1

theorem quote_usual {q : UInt8} (quote : q = 39 ∨ q = 34) : usual q = true := by
  rcases quote with rfl | rfl <;> rfl

theorem TokenText.first_usual (text : TokenText c w t) : usual c = true := by
  cases text with
  | semicolon => rfl
  | literal quote => exact quote_usual quote
  | plain _ all => exact plain_usual (all c List.mem_cons_self)

theorem TokenText.last_usual (text : TokenText c w t) (last : (c::w).getLast? = some b) :
    usual b = true ∧ GoDb.isSpace b = false := by
  cases text with
  | semicolon =>
    obtain rfl := Option.some.inj last
    decide
  | literal quote =>
    rw [← List.cons_append,List.getLast?_concat] at last
    obtain rfl := Option.some.inj last
    refine ⟨quote_usual quote,?_⟩
    rcases quote with rfl | rfl <;> rfl
  | plain _ all =>
    have plain := all b (List.mem_of_getLast? last)
    refine ⟨plain_usual plain,?_⟩
    simp only [plainByte,Bool.and_eq_true,Bool.not_eq_true'] at plain
    exact plain.2

theorem Tidy.first_usual (tidy : Tidy (c::s) body) : usual c = true := by
  cases tidy with
  | space is => exact space_usual is
  | token _ _ text => exact text.first_usual

theorem Tidy.last_usual (tidy : Tidy s body) (last : s.getLast? = some b) : usual b = true := by
  induction tidy with
  | nil => cases last
  | @space c s body is rest ih =>
    rcases s with _ | ⟨d,s⟩
    · obtain rfl := Option.some.inj last
      exact space_usual is
    · rw [List.getLast?_cons_cons] at last
      exact ih last
  | @token c w rest t body space found text later ih =>
    rcases rest with _ | ⟨d,rest⟩
    · rw [List.append_nil] at last
      exact (text.last_usual last).1
    · rw [← List.cons_append,List.getLast?_append_of_ne_nil _ (List.cons_ne_nil d rest)] at last
      exact ih last

theorem space_boundary (is : GoDb.isSpace b = true) : Boundary [b] := by
  apply boundary_cons
  constructor
  · by_contra word
    have plain := word_plain (Bool.not_eq_false _ ▸ word)
    simp [plainByte,is] at plain
  · rintro rfl
    cases is

theorem Tidy.chop (is : GoDb.isSpace b = true) (tidy : Tidy (s ++ [b]) body) : Tidy s body := by
  generalize whole : s ++ [b] = u at tidy
  induction tidy generalizing s with
  | nil => simp at whole
  | @space c u body blank rest ih =>
    rcases s with _ | ⟨d,s⟩
    · obtain ⟨-,rfl⟩ := List.cons.inj whole
      exact rest
    · obtain ⟨rfl,rfl⟩ := List.cons.inj whole
      exact .space blank (ih rfl)
  | @token c w rest t body space found text later ih =>
    rcases s with _ | ⟨d,s⟩
    · obtain ⟨rfl,-⟩ := List.cons.inj whole
      rw [isSpace_of_space is] at space
      cases space
    · rw [List.cons_append] at whole
      obtain ⟨rfl,split⟩ := List.cons.inj whole
      rcases List.eq_nil_or_concat' rest with rfl | ⟨rest,e,rfl⟩
      · rw [List.append_nil] at split
        have last : (d::w).getLast? = some b := by rw [← split,← List.cons_append,List.getLast?_concat]
        rw [(text.last_usual last).2] at is
        cases is
      · rw [← List.append_assoc] at split
        obtain ⟨rfl,same⟩ := List.append_inj' split rfl
        obtain rfl := List.singleton_injective same
        refine .token space (fun n => (next_append (space_boundary is)).mp ?_) text (ih rfl)
        rw [List.append_assoc]
        exact found n

theorem space_rune (is : GoDb.isSpace c = true) (s : Bytes) :
    (spaceRunes.find? fun rune => rune.isPrefixOf (c::s)) = some [c] ∧
      ((spaceRunes.map List.reverse).find? fun rune => rune.isPrefixOf (c::s)) = some [c] := by
  have known : c = 32 ∨ c = 9 ∨ c = 10 ∨ c = 11 ∨ c = 12 ∨ c = 13 := by
    simp only [GoDb.isSpace,Bool.or_eq_true,Bool.and_eq_true,decide_eq_true_eq,UInt8.le_iff_toNat_le,
      ← UInt8.toNat_inj,UInt8.reduceToNat] at is ⊢
    omega
  rcases known with rfl | rfl | rfl | rfl | rfl | rfl <;> exact ⟨rfl,rfl⟩

theorem stripAll_stop {runes : List Bytes} (apart : ∀ rune ∈ runes, rune.isPrefixOf s = false) (turns : Nat) :
    stripAll runes turns s = s := by
  cases turns with
  | zero => rfl
  | succ turns =>
    have none : (runes.find? fun rune => rune.isPrefixOf s) = none := by
      rw [List.find?_eq_none]
      intro rune there
      rw [apart rune there]
      decide
    rw [stripAll,none]

theorem Tidy.no_rune (space : isSpace c = false) (text : TokenText c w t) (later : Tidy rest body) :
    ∀ rune ∈ spaceRunes, rune.isPrefixOf (c::(w ++ rest)) = false := by
  have shapes : ∀ rune ∈ spaceRunes, runeShape rune = true := by decide
  intro rune there
  have shape := shapes rune there
  by_contra found
  rw [Bool.not_eq_false,List.isPrefixOf_iff_prefix] at found
  rcases rune with _ | ⟨b,_ | ⟨d,more⟩⟩
  · cases shape
  · obtain ⟨rfl,-⟩ := List.cons_prefix_cons.mp found
    rw [isSpace_of_space shape] at space
    cases space
  · obtain ⟨rfl,behind⟩ := List.cons_prefix_cons.mp found
    simp only [runeShape,Bool.and_eq_true,Bool.not_eq_true',decide_eq_true_eq] at shape
    obtain ⟨high,other⟩ := shape
    have second : usual d = true := by
      cases text with
      | semicolon => exact absurd high (by decide)
      | literal quote => rcases quote with rfl | rfl <;> exact absurd high (by decide)
      | plain _ all =>
        rcases w with _ | ⟨e,w⟩
        · rcases rest with _ | ⟨e,rest⟩
          · simp at behind
          · obtain ⟨rfl,-⟩ := List.cons_prefix_cons.mp behind
            exact later.first_usual
        · obtain ⟨rfl,-⟩ := List.cons_prefix_cons.mp behind
          exact plain_usual (all d (by simp))
    rw [other] at second
    cases second

theorem Tidy.stripLeft (tidy : Tidy s body) {turns : Nat} (enough : s.length ≤ turns) :
    Tidy (stripAll spaceRunes turns s) body ∧
      ∀ c, (stripAll spaceRunes turns s).head? = some c → GoDb.isSpace c = false := by
  induction tidy generalizing turns with
  | nil =>
    rw [stripAll_stop (by decide)]
    exact ⟨.nil,nofun⟩
  | @space c s body is rest ih =>
    cases turns with
    | zero => cases enough
    | succ turns =>
      rw [stripAll,(space_rune is s).1]
      exact ih (Nat.le_of_succ_le_succ enough)
  | @token c w rest t body space found text later ih =>
    rw [stripAll_stop (Tidy.no_rune space text later)]
    refine ⟨.token space found text later,fun d head => ?_⟩
    obtain rfl := Option.some.inj head
    by_contra is
    rw [isSpace_of_space (Bool.not_eq_false _ ▸ is)] at space
    cases space

theorem Tidy.stripRight {turns : Nat} (tidy : Tidy s body) (enough : s.length ≤ turns) :
    Tidy (stripAll (spaceRunes.map List.reverse) turns s.reverse).reverse body := by
  have ends : ∀ rune ∈ spaceRunes.map List.reverse, runeEnd rune = true := by decide
  induction turns generalizing s with
  | zero =>
    rw [stripAll,List.reverse_reverse]
    exact tidy
  | succ turns ih =>
    rcases List.eq_nil_or_concat' s with rfl | ⟨s,b,rfl⟩
    · rw [stripAll_stop (by decide)]
      exact tidy
    · rw [List.reverse_append,List.reverse_singleton,List.singleton_append]
      by_cases is : GoDb.isSpace b = true
      · rw [stripAll,(space_rune is s.reverse).2]
        exact ih (tidy.chop is) (by simpa using enough)
      · rw [stripAll_stop]
        · simpa using tidy
        · intro rune there
          have shape := ends rune there
          by_contra found
          rw [Bool.not_eq_false,List.isPrefixOf_iff_prefix] at found
          rcases rune with _ | ⟨c,_ | ⟨d,more⟩⟩
          · cases shape
          · obtain ⟨rfl,-⟩ := List.cons_prefix_cons.mp found
            exact is shape
          · obtain ⟨rfl,-⟩ := List.cons_prefix_cons.mp found
            have last := tidy.last_usual List.getLast?_concat
            simp [runeEnd,last] at shape

theorem Tidy.kept (tidy : Tidy s body) :
    body = [] ∧ keptPiece s = [] ∨ body ≠ [] ∧ ∃ core, keptPiece s = [core] ∧ Tidy core body := by
  obtain ⟨left,head⟩ := tidy.stripLeft (Nat.le_refl s.length)
  have right := left.stripRight (Nat.le_refl _)
  change Tidy (trimSpaceUtf8 s) body at right
  rcases body with _ | ⟨t,body⟩
  · refine .inl ⟨rfl,?_⟩
    have none : stripAll spaceRunes s.length s = [] := by
      generalize stripAll spaceRunes s.length s = core at left head
      cases left with
      | nil => rfl
      | space is =>
        rw [head _ rfl] at is
        cases is
    have empty : trimSpaceUtf8 s = [] := by
      unfold trimSpaceUtf8
      rw [none]
      rfl
    rw [keptPiece,if_pos empty]
  · refine .inr ⟨List.cons_ne_nil t body,trimSpaceUtf8 s,if_neg fun empty => ?_,right⟩
    rw [empty] at right
    cases right

theorem lex_parts {pieces : List Bytes} {runs : List (List Token)} (tidy : List.Forall₂ Tidy pieces runs) :
    (pieces.flatMap keptPiece).map Lexer.lex =
      (runs.filter (· ≠ [])).map fun run => .ok (renumber 0 run ++ [⟨.eof,[]⟩]) := by
  induction tidy with
  | nil => rfl
  | cons first _ ih =>
    rw [List.flatMap_cons,List.map_append,ih,List.filter_cons]
    rcases first.kept with ⟨rfl,none⟩ | ⟨some,core,kept,inner⟩
    · rw [none,if_neg (by simp)]
      rfl
    · rw [kept,if_pos (by simpa using some),List.map_singleton,inner.lex]
      rfl

end Lexer

def twoStatements : Bytes := ascii "SELECT ';' ; ;BEGIN"

/-- `SELECT 'a\';b'`: a semicolon behind a quote with a backslash. -/
def escapedQuote : Bytes := ascii "SELECT 'a\\';b'"

end GoDb
