import Mathlib.Tactic

namespace Trace0
namespace Wire

-- Numbers of seven bits a byte, the lowest first; every byte but the last has its high
-- bit set.
def varint (n : Nat) : List UInt8 :=
  if n < 128 then [.ofNat n] else .ofNat (n % 128 + 128) :: varint (n / 128)
termination_by n

def readVarint : List UInt8 → Option (Nat × List UInt8)
  | [] => none
  | b :: rest =>
    if b.toNat < 128 then some (b.toNat,rest)
    else (readVarint rest).map fun (n,tail) => (b.toNat - 128 + 128 * n,tail)

theorem varint_small (small : n < 128) : varint n = [.ofNat n] := by
  rw [varint,if_pos small]

theorem varint_large (large : 128 ≤ n) : varint n = .ofNat (n % 128 + 128) :: varint (n / 128) := by
  rw [varint,if_neg (not_lt.mpr large)]

theorem varint_roundtrip (n : Nat) (suffix : List UInt8) : readVarint (varint n ++ suffix) = some (n,suffix) := by
  induction n using Nat.strongRecOn with
  | ind n ih =>
    by_cases small : n < 128
    · have byte : (UInt8.ofNat n).toNat = n := UInt8.toNat_ofNat_of_lt' (by simp [UInt8.size]; omega)
      rw [varint_small small,List.singleton_append,readVarint,byte,if_pos small]
    · have byte : (UInt8.ofNat (n % 128 + 128)).toNat = n % 128 + 128 :=
        UInt8.toNat_ofNat_of_lt' (by simp [UInt8.size]; omega)
      have next := ih (n / 128) (by omega)
      rw [varint_large (not_lt.mp small),List.cons_append,readVarint,byte,if_neg (by omega),next]
      simp only [Option.map_some,Option.some.injEq,Prod.mk.injEq,and_true]
      omega

theorem varint_ne_nil (n : Nat) : varint n ≠ [] := by
  rw [varint]
  split <;> simp

-- A message is a list of numbered fields, each a number or a block of bytes.
inductive Value where
  | number (n : Nat)
  | bytes (b : List UInt8)
  deriving DecidableEq

abbrev Field := Nat × Value

def writeField : Field → List UInt8
  | (tag,.number n) => varint (8 * tag) ++ varint n
  | (tag,.bytes b) => varint (8 * tag + 2) ++ (varint b.length ++ b)

def writeFields (fields : List Field) : List UInt8 := fields.flatMap writeField

-- The other wire types belong to no field of the messages this library is used for.
def readField (bytes : List UInt8) : Option (Field × List UInt8) := do
  let (key,rest) ← readVarint bytes
  if key % 8 = 0 then
    let (n,rest) ← readVarint rest
    some ((key / 8,.number n),rest)
  else if key % 8 = 2 then
    let (length,rest) ← readVarint rest
    if length ≤ rest.length then some ((key / 8,.bytes (rest.take length)),rest.drop length) else none
  else none

-- A field takes a byte at the least, so the length bounds their count.
def readFieldsIn : Nat → List UInt8 → Option (List Field)
  | _,[] => some []
  | 0,_ :: _ => none
  | fuel+1,bytes => do
    let (field,rest) ← readField bytes
    let fields ← readFieldsIn fuel rest
    some (field :: fields)

def readFields (bytes : List UInt8) : Option (List Field) := readFieldsIn bytes.length bytes

theorem field_roundtrip (field : Field) (suffix : List UInt8) :
    readField (writeField field ++ suffix) = some (field,suffix) := by
  obtain ⟨tag,value⟩ := field
  cases value with
  | number n =>
    have kind : 8 * tag % 8 = 0 := by omega
    have own : 8 * tag / 8 = tag := by omega
    simp only [writeField,readField,List.append_assoc,varint_roundtrip,Option.bind_eq_bind,Option.bind_some,
      kind,own,if_pos]
  | bytes b =>
    have kind : (8 * tag + 2) % 8 = 2 := by omega
    have own : (8 * tag + 2) / 8 = tag := by omega
    simp [writeField,readField,varint_roundtrip,kind,own]

theorem writeField_ne_nil (field : Field) : writeField field ≠ [] := by
  obtain ⟨tag,value⟩ := field
  cases value <;> exact List.append_ne_nil_of_left_ne_nil (varint_ne_nil _) _

theorem fields_roundtrip_in (fields : List Field) (fuel : Nat) (enough : (writeFields fields).length ≤ fuel) :
    readFieldsIn fuel (writeFields fields) = some fields := by
  induction fields generalizing fuel with
  | nil => cases fuel <;> rfl
  | cons field rest ih =>
    have some : 0 < (writeField field).length := List.length_pos_iff.mpr (writeField_ne_nil field)
    have whole : writeFields (field :: rest) = writeField field ++ writeFields rest := List.flatMap_cons
    rw [whole,List.length_append] at enough
    obtain ⟨fuel,rfl⟩ : ∃ less, fuel = less + 1 := ⟨fuel - 1,by omega⟩
    obtain ⟨b,bytes,shape⟩ := List.exists_cons_of_ne_nil (writeField_ne_nil field)
    have unfolded : readFieldsIn (fuel+1) (writeField field ++ writeFields rest) =
        (readField (writeField field ++ writeFields rest)).bind fun next =>
          (readFieldsIn fuel next.2).bind fun fields => .some (next.1 :: fields) := by
      rw [shape]
      rfl
    rw [whole,unfolded,field_roundtrip,Option.bind_some,ih fuel (by omega)]
    rfl

theorem fields_roundtrip (fields : List Field) : readFields (writeFields fields) = some fields :=
  fields_roundtrip_in fields _ le_rfl

@[simp] theorem writeFields_append (left right : List Field) :
    writeFields (left ++ right) = writeFields left ++ writeFields right := List.flatMap_append

@[simp] theorem writeFields_cons (field : Field) (rest : List Field) :
    writeFields (field :: rest) = writeField field ++ writeFields rest := List.flatMap_cons

@[simp] theorem writeFields_nil : writeFields [] = [] := rfl

def readMessage (merge : M → Field → Option M) (empty : M) (bytes : List UInt8) : Option M := do
  (← readFields bytes).foldlM merge empty

theorem readMessage_write (merge : M → Field → Option M) (empty : M) (fields : List Field) :
    readMessage merge empty (writeFields fields) = fields.foldlM merge empty := by
  rw [readMessage,fields_roundtrip]
  rfl

def optional (tag : Nat) (value : A → Value) (a : Option A) : List Field := (a.map fun a => (tag,value a)).toList
def repeated (tag : Nat) (value : A → Value) (as : List A) : List Field := as.map fun a => (tag,value a)

theorem optional_read {merge : M → Field → Option M} {tag : Nat} {value : A → Value} {m : M} (put : Option A → M)
    (unset : put none = m) (sets : ∀ a, merge m (tag,value a) = some (put (some a))) (a : Option A) :
    (optional tag value a).foldlM merge m = some (put a) := by
  cases a with
  | none => rw [unset]; rfl
  | some a =>
    simp only [optional,Option.map_some,Option.toList_some,List.foldlM_cons,List.foldlM_nil,sets]
    rfl

theorem repeated_read {merge : M → Field → Option M} {tag : Nat} {value : A → Value} {m : M} (put : List A → M)
    (unset : put [] = m) (adds : ∀ as a, merge (put as) (tag,value a) = some (put (as ++ [a]))) (as : List A) :
    (repeated tag value as).foldlM merge m = some (put as) := by
  have onward : ∀ as had, (repeated tag value as).foldlM merge (put had) = some (put (had ++ as)) := by
    intro as
    induction as with
    | nil => intro had; rw [List.append_nil]; rfl
    | cons a rest ih =>
      intro had
      simp only [repeated,List.map_cons,List.foldlM_cons,adds,Option.bind_eq_bind,Option.bind_some]
      have next := ih (had ++ [a])
      rw [List.append_assoc,List.singleton_append] at next
      exact next
  rw [← unset]
  exact onward as []

theorem foldlM_split {merge : M → Field → Option M} {left right : List Field} {m : M}
    (first : left.foldlM merge m = some middle) (second : right.foldlM merge middle = some last) :
    (left ++ right).foldlM merge m = some last := by
  rw [List.foldlM_append,first]
  exact second

end Wire
end Trace0
