import Mathlib.Tactic

namespace Trace0
namespace JsonText

-- The values of RFC 8259; a number is its exact value.
inductive Value where
  | null
  | bool (b : Bool)
  | number (q : ℚ)
  | string (s : String)
  | array (items : List Value)
  | object (members : List (String × Value))

def isSpace (b : UInt8) : Bool := b = 0x20 ∨ b = 0x09 ∨ b = 0x0a ∨ b = 0x0d
def isDigit (b : UInt8) : Bool := 0x30 ≤ b ∧ b ≤ 0x39

def skip (text : List UInt8) : List UInt8 := text.dropWhile isSpace

def natOf (digits : List UInt8) : Nat := digits.foldl (fun n d => 10 * n + (d - 0x30).toNat) 0

def hexValue (b : UInt8) : Option Nat :=
  if isDigit b then some (b - 0x30).toNat
  else if 0x61 ≤ b ∧ b ≤ 0x66 then some ((b - 0x61).toNat + 10)
  else if 0x41 ≤ b ∧ b ≤ 0x46 then some ((b - 0x41).toNat + 10)
  else none

def readHex : List UInt8 → Option (Nat × List UInt8)
  | a :: b :: c :: d :: rest => do
    some ((((← hexValue a) * 16 + (← hexValue b)) * 16 + (← hexValue c)) * 16 + (← hexValue d),rest)
  | _ => none

def encodeChar (n : Nat) : List UInt8 := String.utf8EncodeChar (Char.ofNat n)

def readUnicode (text : List UInt8) : Option (List UInt8 × List UInt8) := do
  let (n,rest) ← readHex text
  if n < 0xd800 ∨ 0xe000 ≤ n then some (encodeChar n,rest)
  else
    match rest with
    | 0x5c :: 0x75 :: rest => do
      let (m,rest) ← readHex rest
      if n < 0xdc00 ∧ 0xdc00 ≤ m ∧ m < 0xe000 then
        some (encodeChar (0x10000 + (n - 0xd800) * 0x400 + (m - 0xdc00)),rest)
      else none
    | _ => none

def shortEscape (b : UInt8) : Option UInt8 :=
  if b = 0x22 ∨ b = 0x5c ∨ b = 0x2f then some b
  else if b = 0x62 then some 0x08
  else if b = 0x66 then some 0x0c
  else if b = 0x6e then some 0x0a
  else if b = 0x72 then some 0x0d
  else if b = 0x74 then some 0x09
  else none

def readEscape : List UInt8 → Option (List UInt8 × List UInt8)
  | [] => none
  | b :: rest => if b = 0x75 then readUnicode rest else (shortEscape b).map fun c => ([c],rest)

def readChars : Nat → List UInt8 → Option (List UInt8 × List UInt8)
  | 0,_ => none
  | _+1,[] => none
  | fuel+1,b :: rest =>
    if b = 0x22 then some ([],rest)
    else if b = 0x5c then do
      let (c,rest) ← readEscape rest
      let (cs,rest) ← readChars fuel rest
      some (c ++ cs,rest)
    else if b < 0x20 then none
    else (readChars fuel rest).map fun (cs,rest) => (b :: cs,rest)

def readString (text : List UInt8) : Option (String × List UInt8) := do
  let (bytes,rest) ← readChars (text.length + 1) text
  some (← String.fromUTF8? ⟨bytes.toArray⟩,rest)

def splitSign : List UInt8 → Bool × List UInt8
  | [] => (false,[])
  | b :: rest => if b = 0x2d then (true,rest) else (false,b :: rest)

def readInt (text : List UInt8) : Option (List UInt8 × List UInt8) :=
  match text.takeWhile isDigit with
  | [] => none
  | [d] => some ([d],text.dropWhile isDigit)
  | d :: ds => if d = 0x30 then none else some (d :: ds,text.dropWhile isDigit)

def readFraction : List UInt8 → Option (List UInt8 × List UInt8)
  | [] => some ([],[])
  | b :: rest =>
    if b = 0x2e then
      if rest.takeWhile isDigit = [] then none else some (rest.takeWhile isDigit,rest.dropWhile isDigit)
    else some ([],b :: rest)

def expSign : List UInt8 → Bool × List UInt8
  | [] => (false,[])
  | b :: rest => if b = 0x2b then (false,rest) else splitSign (b :: rest)

def readExponent : List UInt8 → Option (Int × List UInt8)
  | [] => some (0,[])
  | e :: rest =>
    if e = 0x65 ∨ e = 0x45 then
      let n := natOf ((expSign rest).2.takeWhile isDigit)
      if (expSign rest).2.takeWhile isDigit = [] then none
      else some (if (expSign rest).1 then -n else n,(expSign rest).2.dropWhile isDigit)
    else some (0,e :: rest)

def readNumber (text : List UInt8) : Option (ℚ × List UInt8) := do
  let (int,rest) ← readInt (splitSign text).2
  let (fraction,rest) ← readFraction rest
  let (exponent,rest) ← readExponent rest
  let size : ℚ := (natOf (int ++ fraction) : ℚ) / 10 ^ fraction.length * 10 ^ exponent
  some (if (splitSign text).1 then -size else size,rest)

def readWord (word : List UInt8) (value : Value) (text : List UInt8) : Option (Value × List UInt8) :=
  if word <+: text then some (value,text.drop word.length) else none

-- The fuel bounds the nesting and the items read, so the length of a text is enough.
mutual
def readValue : Nat → List UInt8 → Option (Value × List UInt8)
  | 0,_ => none
  | fuel+1,text =>
    match skip text with
    | [] => none
    | b :: rest =>
      if b = 0x22 then (readString rest).map fun (s,rest) => (.string s,rest)
      else if b = 0x5b then
        match skip rest with
        | [] => none
        | c :: after =>
          if c = 0x5d then some (.array [],after)
          else (readItems fuel (c :: after)).map fun (items,rest) => (.array items,rest)
      else if b = 0x7b then
        match skip rest with
        | [] => none
        | c :: after =>
          if c = 0x7d then some (.object [],after)
          else (readMembers fuel (c :: after)).map fun (members,rest) => (.object members,rest)
      else if b = 0x74 then readWord [0x72,0x75,0x65] (.bool true) rest
      else if b = 0x66 then readWord [0x61,0x6c,0x73,0x65] (.bool false) rest
      else if b = 0x6e then readWord [0x75,0x6c,0x6c] .null rest
      else (readNumber (b :: rest)).map fun (q,rest) => (.number q,rest)

def readItems : Nat → List UInt8 → Option (List Value × List UInt8)
  | 0,_ => none
  | fuel+1,text => do
    let (item,rest) ← readValue fuel text
    match skip rest with
    | 0x2c :: rest => do
      let (items,rest) ← readItems fuel rest
      some (item :: items,rest)
    | 0x5d :: rest => some ([item],rest)
    | _ => none

def readMembers : Nat → List UInt8 → Option (List (String × Value) × List UInt8)
  | 0,_ => none
  | fuel+1,text =>
    match skip text with
    | 0x22 :: rest => do
      let (key,rest) ← readString rest
      match skip rest with
      | 0x3a :: rest => do
        let (value,rest) ← readValue fuel rest
        match skip rest with
        | 0x2c :: rest => do
          let (members,rest) ← readMembers fuel rest
          some ((key,value) :: members,rest)
        | 0x7d :: rest => some ([(key,value)],rest)
        | _ => none
      | _ => none
    | _ => none
end

def parse (text : List UInt8) : Option Value := do
  let (value,rest) ← readValue (text.length + 1) text
  if skip rest = [] then some value else none

def Delimited (rest : List UInt8) : Prop := rest = [] ∨ ∃ b more, rest = b :: more ∧ (b = 0x2c ∨ b = 0x5d ∨ b = 0x7d)

theorem readExponent_none (ends : Delimited rest) : readExponent rest = some (0,rest) := by
  rcases ends with rfl | ⟨b,more,rfl,rfl | rfl | rfl⟩ <;> rfl

theorem readFraction_none (ends : Delimited rest) : readFraction rest = some ([],rest) := by
  rcases ends with rfl | ⟨b,more,rfl,rfl | rfl | rfl⟩ <;> rfl

-- What a reader leaves over grows with the text behind it, and what it reads does not change.
section

variable {more : List UInt8} (ends : Delimited more)
include ends

theorem takeWhile_more (p : UInt8 → Bool) (stops : p 0x2c = false ∧ p 0x5d = false ∧ p 0x7d = false)
    (text : List UInt8) : (text ++ more).takeWhile p = text.takeWhile p ∧
      (text ++ more).dropWhile p = text.dropWhile p ++ more := by
  induction text with
  | nil =>
    rcases ends with rfl | ⟨b,more,rfl,rfl | rfl | rfl⟩
    · exact ⟨rfl,rfl⟩
    · simp [stops.1]
    · simp [stops.2.1]
    · simp [stops.2.2]
  | cons b text ih =>
    cases found : p b with
    | false => simp [found]
    | true => simp [found,ih]

theorem skip_more (text : List UInt8) : skip (text ++ more) = skip text ++ more :=
  (takeWhile_more ends isSpace ⟨rfl,rfl,rfl⟩ text).2

theorem splitSign_more (text : List UInt8) :
    splitSign (text ++ more) = ((splitSign text).1,(splitSign text).2 ++ more) := by
  cases text with
  | nil => rcases ends with rfl | ⟨b,more,rfl,rfl | rfl | rfl⟩ <;> rfl
  | cons b text =>
    rw [List.cons_append,splitSign,splitSign]
    split <;> rfl

theorem expSign_more (text : List UInt8) : expSign (text ++ more) = ((expSign text).1,(expSign text).2 ++ more) := by
  cases text with
  | nil => rcases ends with rfl | ⟨b,more,rfl,rfl | rfl | rfl⟩ <;> rfl
  | cons b text =>
    rw [List.cons_append,expSign,expSign]
    split
    · rfl
    · exact splitSign_more ends (b :: text)

theorem readInt_more (read : readInt text = some (int,rest)) : readInt (text ++ more) = some (int,rest ++ more) := by
  have after := takeWhile_more ends isDigit ⟨rfl,rfl,rfl⟩ text
  unfold readInt at read ⊢
  rw [after.1,after.2]
  split at read
  · cases read
  · cases read
    rfl
  · split at read
    · cases read
    · cases read
      next solid => exact if_neg solid

theorem readFraction_more (read : readFraction text = some (fraction,rest)) :
    readFraction (text ++ more) = some (fraction,rest ++ more) := by
  cases text with
  | nil =>
    cases read
    exact readFraction_none ends
  | cons b text =>
    have after := takeWhile_more ends isDigit ⟨rfl,rfl,rfl⟩ text
    rw [readFraction] at read
    rw [List.cons_append,readFraction,after.1,after.2]
    split at read
    · next point =>
      split at read
      · cases read
      · next digits =>
        cases read
        rw [if_pos point,if_neg digits]
    · next plain =>
      cases read
      exact if_neg plain

theorem readExponent_more (read : readExponent text = some (exponent,rest)) :
    readExponent (text ++ more) = some (exponent,rest ++ more) := by
  cases text with
  | nil =>
    cases read
    exact readExponent_none ends
  | cons b text =>
    have after := takeWhile_more ends isDigit ⟨rfl,rfl,rfl⟩ (expSign text).2
    rw [readExponent] at read
    rw [List.cons_append,readExponent,expSign_more ends]
    split at read
    · next mark =>
      simp only [after.1,after.2]
      split at read
      · cases read
      · next digits =>
        cases read
        rw [if_pos mark,if_neg digits]
    · next plain =>
      cases read
      exact if_neg plain

theorem readNumber_more (read : readNumber text = some (q,rest)) :
    readNumber (text ++ more) = some (q,rest ++ more) := by
  unfold readNumber at read ⊢
  obtain ⟨⟨int,rest⟩,int_read,read⟩ := Option.bind_eq_some_iff.mp read
  obtain ⟨⟨fraction,rest⟩,fraction_read,read⟩ := Option.bind_eq_some_iff.mp read
  obtain ⟨⟨exponent,rest⟩,exponent_read,read⟩ := Option.bind_eq_some_iff.mp read
  cases read
  simp only [splitSign_more ends,readInt_more ends int_read,readFraction_more ends fraction_read,
    readExponent_more ends exponent_read,Option.bind_eq_bind,Option.bind_some]

end

theorem readHex_more (read : readHex text = some (n,rest)) (more : List UInt8) :
    readHex (text ++ more) = some (n,rest ++ more) := by
  unfold readHex at read
  split at read
  · obtain ⟨a,a_read,read⟩ := Option.bind_eq_some_iff.mp read
    obtain ⟨b,b_read,read⟩ := Option.bind_eq_some_iff.mp read
    obtain ⟨c,c_read,read⟩ := Option.bind_eq_some_iff.mp read
    obtain ⟨d,d_read,read⟩ := Option.bind_eq_some_iff.mp read
    cases read
    simp only [List.cons_append,readHex,a_read,b_read,c_read,d_read,Option.bind_eq_bind,Option.bind_some]
  · cases read

theorem readUnicode_more (read : readUnicode text = some (c,rest)) (more : List UInt8) :
    readUnicode (text ++ more) = some (c,rest ++ more) := by
  unfold readUnicode at read ⊢
  obtain ⟨⟨n,rest⟩,first,read⟩ := Option.bind_eq_some_iff.mp read
  simp only [readHex_more first more,Option.bind_eq_bind,Option.bind_some]
  simp only [] at read
  split at read
  · next single =>
    cases read
    rw [if_pos single]
  · next pair =>
    rw [if_neg pair]
    split at read
    · obtain ⟨⟨m,rest⟩,second,read⟩ := Option.bind_eq_some_iff.mp read
      simp only [] at read
      split at read
      · next fits =>
        obtain ⟨rfl,rfl⟩ := Prod.mk.inj (Option.some.inj read)
        simp only [List.cons_append,readHex_more second more,Option.bind_some,if_pos fits]
      · cases read
    · cases read

theorem readEscape_more (read : readEscape text = some (c,rest)) (more : List UInt8) :
    readEscape (text ++ more) = some (c,rest ++ more) := by
  cases text with
  | nil => cases read
  | cons b text =>
    rw [readEscape] at read
    rw [List.cons_append,readEscape]
    split at read
    · next unicode =>
      rw [if_pos unicode]
      exact readUnicode_more read more
    · next short =>
      obtain ⟨c,found,same⟩ := Option.map_eq_some_iff.mp read
      cases same
      rw [if_neg short,found]
      rfl

theorem readChars_more (read : readChars fuel text = some (cs,rest)) (enough : fuel ≤ larger) (more : List UInt8) :
    readChars larger (text ++ more) = some (cs,rest ++ more) := by
  induction fuel generalizing text cs larger with
  | zero => cases read
  | succ fuel ih =>
    obtain ⟨larger,rfl⟩ : ∃ less, larger = less + 1 := ⟨larger - 1,by omega⟩
    have less := Nat.le_of_succ_le_succ enough
    cases text with
    | nil => cases read
    | cons b text =>
      rw [readChars] at read
      rw [List.cons_append,readChars]
      split at read
      · next quote =>
        cases read
        rw [if_pos quote]
      next quote =>
      rw [if_neg quote]
      split at read
      · next slash =>
        obtain ⟨⟨c,after⟩,code,read⟩ := Option.bind_eq_some_iff.mp read
        obtain ⟨⟨others,last⟩,chars,read⟩ := Option.bind_eq_some_iff.mp read
        cases read
        simp only [if_pos slash,readEscape_more code more,ih chars less,Option.bind_eq_bind,Option.bind_some]
      next slash =>
      rw [if_neg slash]
      split at read
      · cases read
      · next visible =>
        obtain ⟨⟨others,last⟩,chars,read⟩ := Option.map_eq_some_iff.mp read
        cases read
        rw [if_neg visible,ih chars less]
        rfl

theorem readString_more (read : readString text = some (s,rest)) (more : List UInt8) :
    readString (text ++ more) = some (s,rest ++ more) := by
  unfold readString at read ⊢
  obtain ⟨⟨bytes,after⟩,chars,read⟩ := Option.bind_eq_some_iff.mp read
  obtain ⟨s,decoded,read⟩ := Option.bind_eq_some_iff.mp read
  cases read
  have longer : text.length + 1 ≤ (text ++ more).length + 1 := by
    rw [List.length_append]
    omega
  simp only [readChars_more chars longer more,decoded,Option.bind_eq_bind,Option.bind_some]

theorem readWord_more (read : readWord word v text = some (w,rest)) (more : List UInt8) :
    readWord word v (text ++ more) = some (w,rest ++ more) := by
  unfold readWord at read ⊢
  split at read
  · next found =>
    cases read
    rw [if_pos (found.trans (List.prefix_append text more)),List.drop_append_of_le_length found.length_le]
  · cases read

def Extends (reader : Nat → List UInt8 → Option (α × List UInt8)) (fuel : Nat) : Prop :=
  ∀ larger text a rest more, Delimited more → reader fuel text = some (a,rest) → fuel ≤ larger →
    reader larger (text ++ more) = some (a,rest ++ more)

theorem value_extends (items : Extends readItems fuel) (members : Extends readMembers fuel) :
    Extends readValue (fuel + 1) := by
  intro larger text read_as rest more ends read enough
  obtain ⟨larger,rfl⟩ : ∃ less, larger = less + 1 := ⟨larger - 1,by omega⟩
  have less := Nat.le_of_succ_le_succ enough
  rw [readValue] at read
  rw [readValue,skip_more ends]
  split at read
  · cases read
  next b after start =>
  simp only [start,List.cons_append]
  split at read
  · next quote =>
    obtain ⟨⟨s,last⟩,string,same⟩ := Option.map_eq_some_iff.mp read
    cases same
    rw [if_pos quote,readString_more string more]
    rfl
  next quote =>
  rw [if_neg quote]
  split at read
  · next bracket =>
    rw [if_pos bracket,skip_more ends]
    split at read
    · cases read
    next c inner start =>
    simp only [start,List.cons_append]
    split at read
    · next close =>
      cases read
      rw [if_pos close]
    · next close =>
      obtain ⟨⟨all,last⟩,list,same⟩ := Option.map_eq_some_iff.mp read
      cases same
      have longer := items _ _ _ _ _ ends list less
      rw [List.cons_append] at longer
      rw [if_neg close,longer]
      rfl
  next bracket =>
  rw [if_neg bracket]
  split at read
  · next brace =>
    rw [if_pos brace,skip_more ends]
    split at read
    · cases read
    next c inner start =>
    simp only [start,List.cons_append]
    split at read
    · next close =>
      cases read
      rw [if_pos close]
    · next close =>
      obtain ⟨⟨all,last⟩,list,same⟩ := Option.map_eq_some_iff.mp read
      cases same
      have longer := members _ _ _ _ _ ends list less
      rw [List.cons_append] at longer
      rw [if_neg close,longer]
      rfl
  next brace =>
  rw [if_neg brace]
  split at read
  · next word => exact (if_pos word).trans (readWord_more read more)
  next word =>
  rw [if_neg word]
  split at read
  · next word => exact (if_pos word).trans (readWord_more read more)
  next word =>
  rw [if_neg word]
  split at read
  · next word => exact (if_pos word).trans (readWord_more read more)
  next word =>
  obtain ⟨⟨q,last⟩,number,same⟩ := Option.map_eq_some_iff.mp read
  cases same
  have longer := readNumber_more ends number
  rw [List.cons_append] at longer
  rw [if_neg word,longer]
  rfl

theorem items_extends (value : Extends readValue fuel) (items : Extends readItems fuel) :
    Extends readItems (fuel + 1) := by
  intro larger text read_as rest more ends read enough
  obtain ⟨larger,rfl⟩ : ∃ less, larger = less + 1 := ⟨larger - 1,by omega⟩
  have less := Nat.le_of_succ_le_succ enough
  rw [readItems] at read ⊢
  obtain ⟨⟨item,after⟩,first,read⟩ := Option.bind_eq_some_iff.mp read
  simp only [value _ _ _ _ _ ends first less,Option.bind_eq_bind,Option.bind_some,skip_more ends]
  simp only [] at read
  split at read
  · next comma =>
    obtain ⟨⟨others,last⟩,list,read⟩ := Option.bind_eq_some_iff.mp read
    cases read
    simp only [comma,List.cons_append,items _ _ _ _ _ ends list less,Option.bind_some]
  · next close =>
    cases read
    simp only [close,List.cons_append]
  · cases read

theorem members_extends (value : Extends readValue fuel) (members : Extends readMembers fuel) :
    Extends readMembers (fuel + 1) := by
  intro larger text read_as rest more ends read enough
  obtain ⟨larger,rfl⟩ : ∃ less, larger = less + 1 := ⟨larger - 1,by omega⟩
  have less := Nat.le_of_succ_le_succ enough
  rw [readMembers] at read ⊢
  rw [skip_more ends]
  split at read
  · next start =>
    obtain ⟨⟨key,after⟩,string,read⟩ := Option.bind_eq_some_iff.mp read
    simp only [start,List.cons_append,readString_more string more,Option.bind_eq_bind,Option.bind_some,skip_more ends]
    simp only [] at read
    split at read
    · next colon =>
      obtain ⟨⟨first,rest⟩,said,read⟩ := Option.bind_eq_some_iff.mp read
      simp only [colon,List.cons_append,value _ _ _ _ _ ends said less,Option.bind_some,skip_more ends]
      simp only [] at read
      split at read
      · next comma =>
        obtain ⟨⟨others,last⟩,list,read⟩ := Option.bind_eq_some_iff.mp read
        cases read
        simp only [comma,List.cons_append,members _ _ _ _ _ ends list less,Option.bind_some]
      · next close =>
        cases read
        simp only [close,List.cons_append]
      · cases read
    · cases read
  · cases read

theorem readers_extend (fuel : Nat) : Extends readValue fuel ∧ Extends readItems fuel ∧ Extends readMembers fuel := by
  induction fuel with
  | zero => exact ⟨nofun,nofun,nofun⟩
  | succ fuel ih =>
    obtain ⟨value,items,members⟩ := ih
    exact ⟨value_extends items members,items_extends value items,members_extends value members⟩

def Reads (text : List UInt8) (v : Value) : Prop :=
  ∀ fuel rest, text.length < fuel → Delimited rest → ∃ blank, skip blank = [] ∧
    readValue fuel (text ++ rest) = some (v,blank ++ rest)

theorem reads_of_parse (read : parse text = some v) : Reads text v := by
  intro fuel rest enough ends
  unfold parse at read
  obtain ⟨⟨v,blank⟩,found,read⟩ := Option.bind_eq_some_iff.mp read
  simp only [] at read
  split at read
  · next space =>
    cases read
    exact ⟨blank,space,(readers_extend _).1 _ _ _ _ _ ends found enough⟩
  · cases read

theorem Reads.parse (reads : Reads text v) : parse text = some v := by
  obtain ⟨blank,space,whole⟩ := reads (text.length + 1) [] (Nat.lt_succ_self _) (.inl rfl)
  rw [List.append_nil,List.append_nil] at whole
  simp only [JsonText.parse,whole,Option.bind_eq_bind,Option.bind_some,if_pos space]

def ReadsKey (text : List UInt8) (key : String) : Prop :=
  ∃ body, text = 0x22 :: body ∧ ∀ rest, readString (body ++ rest) = some (key,rest)

def ReadsMember (text : List UInt8) (member : String × Value) : Prop :=
  ∃ key value, text = key ++ 0x3a :: value ∧ ReadsKey key member.1 ∧ Reads value member.2

theorem skip_of_head (solid : isSpace b = false) (more : List UInt8) : skip (b :: more) = b :: more := by
  rw [skip,List.dropWhile_cons,if_neg (by rw [solid]; exact Bool.false_ne_true)]

theorem skip_skip (text : List UInt8) : skip (skip text) = skip text := by
  unfold skip
  induction text with
  | nil => rfl
  | cons b rest ih =>
    by_cases space : isSpace b = true
    · rw [List.dropWhile_cons,if_pos space]
      exact ih
    · rw [List.dropWhile_cons,if_neg space,List.dropWhile_cons,if_neg space]

theorem skip_blank (space : skip blank = []) (solid : isSpace b = false) (more : List UInt8) :
    skip (blank ++ b :: more) = b :: more := by
  induction blank with
  | nil => exact skip_of_head solid more
  | cons c blank ih =>
    unfold skip at space ih ⊢
    rw [List.dropWhile_cons] at space
    split at space
    · next blank =>
      rw [List.cons_append,List.dropWhile_cons,if_pos blank]
      exact ih space
    · cases space

theorem readItems_skip (fuel : Nat) (text : List UInt8) : readItems fuel (skip text) = readItems fuel text := by
  rcases fuel with _ | _ | fuel
  · rfl
  · rfl
  · rw [readItems,readItems,readValue,readValue,skip_skip]

theorem readMembers_skip (fuel : Nat) (text : List UInt8) : readMembers fuel (skip text) = readMembers fuel text := by
  cases fuel with
  | zero => rfl
  | succ fuel => rw [readMembers,readMembers,skip_skip]

theorem ReadsKey.reads (key : ReadsKey text s) : Reads text (.string s) := by
  intro fuel rest enough _
  obtain ⟨body,rfl,reads⟩ := key
  obtain ⟨fuel,rfl⟩ : ∃ less, fuel = less + 1 := ⟨fuel - 1,by omega⟩
  have start : skip (0x22 :: body ++ rest) = 0x22 :: (body ++ rest) := skip_of_head rfl _
  refine ⟨[],rfl,?_⟩
  simp only [readValue,start,if_true,reads]
  rfl

-- Items with a comma between each two and the bracket behind them.
def joined (close : UInt8) : List (List UInt8) → List UInt8
  | [] => [close]
  | [text] => text ++ [close]
  | text :: next :: rest => text ++ 0x2c :: joined close (next :: rest)

theorem joined_length (close : UInt8) (text : List UInt8) (rest : List (List UInt8)) :
    text.length < (joined close (text :: rest)).length := by
  cases rest with
  | nil => simp [joined]
  | cons next rest => simp [joined]

theorem items_read {texts : List (List UInt8)} {items : List Value} (each : List.Forall₂ Reads texts items)
    (some : texts ≠ []) (fuel : Nat) (enough : (joined 0x5d texts).length < fuel) (rest : List UInt8) :
    readItems fuel (joined 0x5d texts ++ rest) = .some (items,rest) := by
  induction each generalizing fuel with
  | nil => exact absurd rfl some
  | @cons text item texts items reads each ih =>
    have longer := joined_length 0x5d text texts
    obtain ⟨fuel,rfl⟩ : ∃ less, fuel = less + 1 := ⟨fuel - 1,by omega⟩
    cases texts with
    | nil =>
      cases each
      obtain ⟨blank,space,value⟩ := reads fuel (0x5d :: rest) (by omega) (.inr ⟨_,_,rfl,.inr (.inl rfl)⟩)
      have close := skip_blank (b := 0x5d) space rfl rest
      simp only [joined,List.append_assoc,List.singleton_append,readItems,value,Option.bind_eq_bind,Option.bind_some,
        close]
    | cons next texts =>
      obtain ⟨blank,space,value⟩ := reads fuel (0x2c :: (joined 0x5d (next :: texts) ++ rest)) (by omega)
        (.inr ⟨_,_,rfl,.inl rfl⟩)
      have comma := skip_blank (b := 0x2c) space rfl (joined 0x5d (next :: texts) ++ rest)
      have later := ih (List.cons_ne_nil _ _) fuel (by
        simp only [joined,List.length_append,List.length_cons] at enough
        omega)
      simp only [joined,List.append_assoc,List.cons_append,readItems,value,Option.bind_eq_bind,Option.bind_some,
        comma,later]

theorem members_read {texts : List (List UInt8)} {members : List (String × Value)}
    (each : List.Forall₂ ReadsMember texts members) (some : texts ≠ []) (fuel : Nat)
    (enough : (joined 0x7d texts).length < fuel) (rest : List UInt8) :
    readMembers fuel (joined 0x7d texts ++ rest) = .some (members,rest) := by
  induction each generalizing fuel with
  | nil => exact absurd rfl some
  | @cons text member texts members reads each ih =>
    obtain ⟨_,value,rfl,⟨body,rfl,key⟩,reads⟩ := reads
    have longer := joined_length 0x7d (0x22 :: body ++ 0x3a :: value) texts
    simp only [List.length_append,List.length_cons] at longer
    obtain ⟨fuel,rfl⟩ : ∃ less, fuel = less + 1 := ⟨fuel - 1,by omega⟩
    have colon : ∀ more, skip (0x3a :: more) = 0x3a :: more := skip_of_head rfl
    have quote : ∀ more, skip (0x22 :: more) = 0x22 :: more := skip_of_head rfl
    cases texts with
    | nil =>
      cases each
      obtain ⟨blank,space,value⟩ := reads fuel (0x7d :: rest) (by omega) (.inr ⟨_,_,rfl,.inr (.inr rfl)⟩)
      have close := skip_blank (b := 0x7d) space rfl rest
      simp only [joined,List.append_assoc,List.cons_append,List.nil_append,readMembers,quote,key,colon,value,
        Option.bind_eq_bind,Option.bind_some,close]
    | cons next texts =>
      obtain ⟨blank,space,value⟩ := reads fuel (0x2c :: (joined 0x7d (next :: texts) ++ rest)) (by omega)
        (.inr ⟨_,_,rfl,.inl rfl⟩)
      have comma := skip_blank (b := 0x2c) space rfl (joined 0x7d (next :: texts) ++ rest)
      have later := ih (List.cons_ne_nil _ _) fuel (by
        simp only [joined,List.length_append,List.length_cons] at enough
        omega)
      simp only [joined,List.append_assoc,List.cons_append,readMembers,quote,key,colon,value,Option.bind_eq_bind,
        Option.bind_some,comma,later]

theorem reads_array {texts : List (List UInt8)} {items : List Value} (each : List.Forall₂ Reads texts items) :
    Reads (0x5b :: joined 0x5d texts) (.array items) := by
  intro fuel rest enough _
  obtain ⟨fuel,rfl⟩ : ∃ less, fuel = less + 1 := ⟨fuel - 1,by omega⟩
  rw [List.length_cons] at enough
  have start : skip (0x5b :: joined 0x5d texts ++ rest) = 0x5b :: (joined 0x5d texts ++ rest) := skip_of_head rfl _
  have bracket : (0x5b : UInt8) ≠ 0x22 := by decide
  refine ⟨[],rfl,?_⟩
  simp only [readValue,start,if_neg bracket,if_true]
  cases each with
  | nil =>
    have close : skip (joined 0x5d [] ++ rest) = 0x5d :: rest := skip_of_head rfl _
    simp only [close,if_true,List.nil_append]
  | @cons text item texts items reads each =>
    have read := items_read (.cons reads each) (List.cons_ne_nil _ _) fuel (by omega) rest
    rw [← readItems_skip] at read
    cases found : skip (joined 0x5d (text :: texts) ++ rest) with
    | nil =>
      rw [found] at read
      rcases fuel with _ | _ | fuel <;> cases read
    | cons b more =>
      rw [found] at read
      -- A text that is read as a value does not start with the closing bracket.
      have opens : b ≠ 0x5d := by
        rintro rfl
        rcases fuel with _ | _ | fuel <;> cases read
      simp only [if_neg opens,read,Option.map_some,List.nil_append]

theorem reads_object {texts : List (List UInt8)} {members : List (String × Value)}
    (each : List.Forall₂ ReadsMember texts members) : Reads (0x7b :: joined 0x7d texts) (.object members) := by
  intro fuel rest enough _
  obtain ⟨fuel,rfl⟩ : ∃ less, fuel = less + 1 := ⟨fuel - 1,by omega⟩
  rw [List.length_cons] at enough
  have start : skip (0x7b :: joined 0x7d texts ++ rest) = 0x7b :: (joined 0x7d texts ++ rest) := skip_of_head rfl _
  have quote : (0x7b : UInt8) ≠ 0x22 := by decide
  have bracket : (0x7b : UInt8) ≠ 0x5b := by decide
  refine ⟨[],rfl,?_⟩
  simp only [readValue,start,if_neg quote,if_neg bracket,if_true]
  cases each with
  | nil =>
    have close : skip (joined 0x7d [] ++ rest) = 0x7d :: rest := skip_of_head rfl _
    simp only [close,if_true,List.nil_append]
  | @cons text member texts members reads each =>
    have read := members_read (.cons reads each) (List.cons_ne_nil _ _) fuel (by omega) rest
    rw [← readMembers_skip] at read
    cases found : skip (joined 0x7d (text :: texts) ++ rest) with
    | nil =>
      rw [found] at read
      cases fuel <;> cases read
    | cons b more =>
      rw [found] at read
      have opens : b ≠ 0x7d := by
        rintro rfl
        cases fuel <;> cases read
      simp only [if_neg opens,read,Option.map_some,List.nil_append]

-- Digits with no zero in front of others.
structure Plain (digits : List UInt8) : Prop where
  all : ∀ d ∈ digits, isDigit d = true
  filled : digits ≠ []
  first : digits.head? = some 0x30 → digits = [0x30]

theorem Delimited.no_digit (rest : List UInt8) (ends : Delimited rest) :
    rest.takeWhile isDigit = [] ∧ rest.dropWhile isDigit = rest := by
  rcases ends with rfl | ⟨b,more,rfl,rfl | rfl | rfl⟩ <;> exact ⟨rfl,rfl⟩

theorem readInt_plain (plain : Plain digits) (rest : List UInt8) (stops : rest.takeWhile isDigit = [])
    (stays : rest.dropWhile isDigit = rest) : readInt (digits ++ rest) = some (digits,rest) := by
  have taken : (digits ++ rest).takeWhile isDigit = digits := by
    rw [List.takeWhile_append_of_pos plain.all,stops,List.append_nil]
  have dropped : (digits ++ rest).dropWhile isDigit = rest := by
    rw [List.dropWhile_append_of_pos plain.all,stays]
  rw [readInt,taken,dropped]
  rcases digits with _ | ⟨d,_ | ⟨e,more⟩⟩
  · exact absurd rfl plain.filled
  · rfl
  · have solid : d ≠ 0x30 := by
      rintro rfl
      cases plain.first rfl
    simp only [solid,if_false]

theorem readValue_digit (digit : isDigit d = true) (fuel : Nat) (rest : List UInt8) :
    readValue (fuel + 1) (d :: rest) = (readNumber (d :: rest)).map fun (q,rest) => (.number q,rest) := by
  have solid : isSpace d = false := by
    simp only [isDigit,isSpace,decide_eq_true_eq,decide_eq_false_iff_not,not_or] at digit ⊢
    refine ⟨?_,?_,?_,?_⟩ <;> rintro rfl <;> exact absurd digit (by decide)
  have other (b : UInt8) (no : isDigit b = false) : d ≠ b := by
    rintro rfl
    rw [no] at digit
    cases digit
  have start := skip_of_head solid rest
  simp only [readValue,start,if_neg (other 0x22 rfl),if_neg (other 0x5b rfl),if_neg (other 0x7b rfl),
    if_neg (other 0x74 rfl),if_neg (other 0x66 rfl),if_neg (other 0x6e rfl)]

theorem splitSign_digit (digit : isDigit d = true) (rest : List UInt8) : splitSign (d :: rest) = (false,d :: rest) := by
  have plain : d ≠ 0x2d := by
    rintro rfl
    cases digit
  rw [splitSign,if_neg plain]

theorem reads_number (plain : Plain digits) (fraction tail : List UInt8)
    (part : ∀ rest, Delimited rest → (tail ++ rest).takeWhile isDigit = [] ∧
      (tail ++ rest).dropWhile isDigit = tail ++ rest ∧ readFraction (tail ++ rest) = some (fraction,rest)) :
    Reads (digits ++ tail) (.number ((natOf (digits ++ fraction) : ℚ) / 10 ^ fraction.length)) := by
  intro fuel rest enough ends
  refine ⟨[],rfl,?_⟩
  obtain ⟨stops,stays,read⟩ := part rest ends
  have int := readInt_plain plain (tail ++ rest) stops stays
  rcases digits with _ | ⟨d,more⟩
  · exact absurd rfl plain.filled
  obtain ⟨fuel,rfl⟩ : ∃ less, fuel = less + 1 := ⟨fuel - 1,by simp at enough; omega⟩
  have digit := plain.all d (List.mem_cons_self ..)
  rw [List.append_assoc,List.cons_append,readValue_digit digit,readNumber,splitSign_digit digit]
  rw [List.cons_append] at int
  simp only [int,read,readExponent_none ends,Option.bind_eq_bind,Option.bind_some,Option.map_some,zpow_zero,mul_one,
    Bool.false_eq_true,if_false,List.nil_append]

theorem reads_integer (plain : Plain digits) : Reads digits (.number (natOf digits)) := by
  have reads := reads_number plain [] [] (fun rest ends =>
    ⟨(Delimited.no_digit rest ends).1,(Delimited.no_digit rest ends).2,readFraction_none ends⟩)
  rw [List.append_nil,List.length_nil,pow_zero,div_one] at reads
  exact reads

theorem reads_decimal (plain : Plain digits) (fraction : List UInt8) (all : ∀ d ∈ fraction, isDigit d = true)
    (some : fraction ≠ []) :
    Reads (digits ++ 0x2e :: fraction) (.number ((natOf (digits ++ fraction) : ℚ) / 10 ^ fraction.length)) := by
  refine reads_number plain fraction (0x2e :: fraction) (fun rest ends => ⟨rfl,rfl,?_⟩)
  have after := Delimited.no_digit rest ends
  have taken : (fraction ++ rest).takeWhile isDigit = fraction := by
    rw [List.takeWhile_append_of_pos all,after.1,List.append_nil]
  have dropped : (fraction ++ rest).dropWhile isDigit = rest := by
    rw [List.dropWhile_append_of_pos all,after.2]
  rw [List.cons_append,readFraction,if_pos rfl,taken,dropped,if_neg some]

end JsonText
end Trace0
