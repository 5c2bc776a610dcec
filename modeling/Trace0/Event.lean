import Mathlib.Data.Nat.Bitwise
import Mathlib.Tactic

namespace Trace0

inductive EventKind where
  | Begin
  | End
  | Yield
  | Resume
  | Unwind
  | Throw
  deriving DecidableEq, Repr

namespace EventKind

def toU8 : EventKind → UInt8
  | Begin => 1
  | End => 2
  | Yield => 3
  | Resume => 4
  | Unwind => 5
  | Throw => 6

-- A byte outside 1..6 falls back to `Begin`, as the source's last arm does.
def fromU8 (v : UInt8) : EventKind :=
  if v = 1 then Begin
  else if v = 2 then End
  else if v = 3 then Yield
  else if v = 4 then Resume
  else if v = 5 then Unwind
  else if v = 6 then Throw
  else Begin

def opensSlice : EventKind → Bool
  | Begin | Resume | Throw => true
  | End | Yield | Unwind => false

@[simp] theorem fromU8_toU8 (kind : EventKind) : fromU8 kind.toU8 = kind := by
  cases kind <;> rfl

end EventKind

def codeIdMask : UInt32 := 0x00FFFFFF
def codeIdMax : UInt32 := codeIdMask

def packCodeKind (codeId : UInt32) (kind : EventKind) : UInt32 :=
  (kind.toU8.toUInt32 <<< 24) ||| (codeId &&& codeIdMask)

def codeIdOf (codeKind : UInt32) : UInt32 := codeKind &&& codeIdMask
def kindOf (codeKind : UInt32) : EventKind := .fromU8 (codeKind >>> 24).toUInt8
def opens (codeKind : UInt32) : Bool := (kindOf codeKind).opensSlice

theorem mask_toNat (x : UInt32) : (x &&& codeIdMask).toNat = x.toNat % 2 ^ 24 := by
  rw [UInt32.toNat_and]
  exact Nat.and_two_pow_sub_one_eq_mod x.toNat 24

-- The id occupies the low 24 bits and the kind the byte above, so the `or` is a sum.
theorem pack_toNat (codeId : UInt32) (kind : EventKind) :
    (packCodeKind codeId kind).toNat = kind.toU8.toNat * 2 ^ 24 + codeId.toNat % 2 ^ 24 := by
  have low : codeId.toNat % 2 ^ 24 < 2 ^ 24 := Nat.mod_lt _ (by decide)
  have high : (kind.toU8.toUInt32 <<< 24).toNat = kind.toU8.toNat <<< 24 := by
    cases kind <;> rfl
  rw [packCodeKind,UInt32.toNat_or,mask_toNat,high,← Nat.shiftLeft_add_eq_or_of_lt low,
    Nat.shiftLeft_eq]

@[simp] theorem codeIdOf_pack (codeId : UInt32) (kind : EventKind) :
    codeIdOf (packCodeKind codeId kind) = codeId &&& codeIdMask := by
  rw [← UInt32.toNat_inj,codeIdOf,mask_toNat,pack_toNat,mask_toNat]
  omega

@[simp] theorem kindOf_pack (codeId : UInt32) (kind : EventKind) :
    kindOf (packCodeKind codeId kind) = kind := by
  have low : codeId.toNat % 2 ^ 24 < 2 ^ 24 := Nat.mod_lt _ (by decide)
  have byte : (packCodeKind codeId kind >>> 24).toUInt8 = kind.toU8 := by
    rw [← UInt8.toNat_inj,UInt32.toNat_toUInt8,UInt32.toNat_shiftRight,pack_toNat]
    have small : kind.toU8.toNat < 2 ^ 8 := UInt8.toNat_lt _
    have shift : (24 : UInt32).toNat % 32 = 24 := rfl
    rw [shift,Nat.shiftRight_eq_div_pow]
    omega
  rw [kindOf,byte,EventKind.fromU8_toU8]

theorem mask_of_le (codeId : UInt32) (bounded : codeId ≤ codeIdMax) :
    codeId &&& codeIdMask = codeId := by
  have bound : codeId.toNat ≤ 0x00FFFFFF := UInt32.le_iff_toNat_le.mp bounded
  rw [← UInt32.toNat_inj,mask_toNat]
  omega

@[simp] theorem codeIdOf_mask (codeKind : UInt32) :
    codeIdOf codeKind &&& codeIdMask = codeIdOf codeKind := by
  rw [← UInt32.toNat_inj,mask_toNat,codeIdOf,mask_toNat]
  omega

theorem opens_pack (codeId : UInt32) (kind : EventKind) :
    opens (packCodeKind codeId kind) = kind.opensSlice := by simp [opens]

structure PackedEvent where
  deltaTicks : UInt32
  codeKind : UInt32
  deriving DecidableEq, Repr

def PackedEvent.codeId (p : PackedEvent) : UInt32 := codeIdOf p.codeKind
def PackedEvent.kind (p : PackedEvent) : EventKind := kindOf p.codeKind

structure Event where
  tsNs : UInt64
  tid : UInt32
  codeKind : UInt32
  deriving DecidableEq, Repr

namespace Event

def new (tsNs : UInt64) (tid codeId : UInt32) (kind : EventKind) : Event :=
  ⟨tsNs,tid,packCodeKind codeId kind⟩

def codeId (e : Event) : UInt32 := codeIdOf e.codeKind
def kind (e : Event) : EventKind := kindOf e.codeKind

@[simp] theorem new_codeId (tsNs : UInt64) (tid codeId : UInt32) (kind : EventKind) :
    (new tsNs tid codeId kind).codeId = codeId &&& codeIdMask := codeIdOf_pack _ _

end Event

end Trace0
