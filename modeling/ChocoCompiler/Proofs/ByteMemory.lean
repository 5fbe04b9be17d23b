import ChocoCompiler.Proofs.IrTyping
import Mathlib.Tactic.Common

/-!
# Memory

Memory is made of blocks of bytes: one for each global, and one for each allocation. A pointer is a position
in a block, so no offset leads from one block into another, and null is in no block. A byte need not be a
number: it may never have been written, or be a part of a pointer. Reading and writing fail where a byte is
not there. What is written is read back (`load_overwrite_same`), and what lies apart is as it was
(`load_overwrite_apart`).
-/

namespace ChocoCompiler.Ir

/-! ## Pointers -/

/-- A block: a global, or what an allocation gave. -/
inductive Base where
  | global (name : String)
  | heap (n : Nat)
  deriving DecidableEq, Repr

/-- A position in a block, in bytes. Without a block it is counted from zero. -/
structure Pointer where
  base : Option Base
  offset : Int
  deriving DecidableEq, Repr

namespace Pointer

def null : Pointer := ⟨none, 0⟩

def add (p : Pointer) (n : Int) : Pointer := { p with offset := p.offset + n }

@[simp] theorem base_add (p : Pointer) (n : Int) : (p.add n).base = p.base := rfl

@[simp] theorem offset_add (p : Pointer) (n : Int) : (p.add n).offset = p.offset + n := rfl

@[simp] theorem add_zero (p : Pointer) : p.add 0 = p := by simp [add]

theorem add_add (p : Pointer) (m n : Int) : (p.add m).add n = p.add (m + n) := by
  simp [add, Int.add_assoc]

end Pointer

/-! ## Bytes -/

inductive Byte where
  /-- Never written. -/
  | unset
  | bits (b : BitVec 8)
  /-- One of the bytes of a pointer, counted from zero. -/
  | part (p : Pointer) (i : Nat)
  deriving DecidableEq, Repr

/-- What is computed with and stored. -/
inductive Datum where
  | unset
  | int (width : Nat) (bits : BitVec width)
  | pointer (p : Pointer)
  deriving DecidableEq, Repr

/-- The number of bytes of a scalar, which is its alignment too; zero for other types. -/
def Ty.size : Ty → Nat
  | i1 => 1
  | i8 => 1
  | i32 => 4
  | i64 => 8
  | ptr _ => 8
  | _ => 0

theorem Ty.bits_le_size {ty : Ty} {w : Nat} (h : ty.bits? = some w) : w ≤ 8 * ty.size := by
  cases ty <;> cases h <;> decide

/-- Bytes of a number, the lowest first. -/
def natBytes : Nat → Nat → List Byte
  | 0, _ => []
  | n + 1, k => .bits (BitVec.ofNat 8 k) :: natBytes n (k / 256)

def bytesNat? : List Byte → Option Nat
  | [] => some 0
  | .bits b :: bs => (bytesNat? bs).map (b.toNat + 256 * ·)
  | _ :: _ => none

theorem bytesNat?_natBytes {n k : Nat} (h : k >>> (8 * n) = 0) : bytesNat? (natBytes n k) = some k := by
  induction n generalizing k with
  | zero => exact congrArg some h.symm
  | succ n ih =>
    have hshift : k / 256 = k >>> 8 := (Nat.shiftRight_eq_div_pow k 8).symm
    have hrest : (k / 256) >>> (8 * n) = 0 := by
      rw [hshift, ← Nat.shiftRight_add, ← h]
      congr 1
      omega
    rw [natBytes, bytesNat?, ih hrest, Option.map_some, BitVec.toNat_ofNat]
    exact congrArg some (Nat.mod_add_div k 256)

namespace Datum

def ofBool (b : Bool) : Datum := .int 1 (BitVec.ofBool b)

/-- Whether it can be a value of a type. -/
def hasTy : Datum → Ty → Bool
  | .unset, ty => ty.size != 0
  | .int w _, ty => ty.bits? == some w
  | .pointer _, ty => ty.isPtr

/-- The bytes that it is stored as. -/
def encode (n : Nat) : Datum → List Byte
  | .unset => List.replicate n .unset
  | .int _ b => natBytes n b.toNat
  | .pointer p => (List.range n).map (.part p)

/-- The pointer that bytes stand for; null is all zeros. -/
def decodePointer (bs : List Byte) : Datum :=
  match bs with
  | .part p _ :: _ => if bs = (List.range 8).map (.part p) then .pointer p else .unset
  | _ => if bs = List.replicate 8 (.bits 0) then .pointer .null else .unset

/-- The integer that bytes stand for, if all bits above its width are zero. -/
def decodeInt (w : Nat) (bs : List Byte) : Datum :=
  match bytesNat? bs with
  | some k => if (BitVec.ofNat w k).toNat = k then .int w (BitVec.ofNat w k) else .unset
  | none => .unset

def decode (ty : Ty) (bs : List Byte) : Datum :=
  match ty.bits? with
  | some w => decodeInt w bs
  | none => decodePointer bs

theorem length_encode (n : Nat) (d : Datum) : (d.encode n).length = n := by
  cases d with
  | unset => exact List.length_replicate
  | pointer p => simp [encode]
  | int w b =>
    have hlength : ∀ n k, (natBytes n k).length = n := by
      intro n
      induction n with
      | zero => exact fun _ => rfl
      | succ n ih => exact fun k => congrArg (· + 1) (ih (k / 256))
    exact hlength n b.toNat

theorem decodeInt_encode {w n : Nat} (b : BitVec w) (h : w ≤ 8 * n) :
    decodeInt w ((int w b).encode n) = .int w b := by
  have hshift : b.toNat >>> (8 * n) = 0 :=
    Nat.shiftRight_eq_zero _ _ (Nat.lt_of_lt_of_le b.isLt (Nat.pow_le_pow_right (by decide) h))
  rw [decodeInt, encode, bytesNat?_natBytes hshift]
  simp

theorem decode_encode {d : Datum} {ty : Ty} (h : d.hasTy ty = true) : decode ty (d.encode ty.size) = d := by
  cases d with
  | unset => cases ty <;> rfl
  | int w b =>
    have hbits : ty.bits? = some w := by simpa [hasTy] using h
    rw [decode, hbits]
    exact decodeInt_encode b (Ty.bits_le_size hbits)
  | pointer p =>
    cases ty with
    | ptr => simp [decode, Ty.bits?, Ty.size, encode, List.range_succ, decodePointer]
    | _ => cases h

end Datum

/-! ## Memory -/

structure Memory where
  byte? : Base → Int → Option Byte
  /-- The number of allocations so far. -/
  next : Nat
  fresh : ∀ n, next ≤ n → ∀ i, byte? (.heap n) i = none

namespace Memory

variable {mem mem' mem'' : Memory} {p q : Pointer} {n : Nat} {bs : List Byte} {ty : Ty} {d : Datum}

def get (mem : Memory) (p : Pointer) : Option Byte := p.base.bind (mem.byte? · p.offset)

/-- The bytes from a position on. -/
def readBytes (mem : Memory) (p : Pointer) : Nat → Option (List Byte)
  | 0 => some []
  | n + 1 => do return (← mem.get p) :: (← mem.readBytes (p.add 1) n)

/-- Replaces bytes that are there. -/
def overwrite (mem : Memory) (p : Pointer) (bs : List Byte) : Memory where
  byte? b i := (mem.byte? b i).map fun old =>
    if p.base = some b ∧ p.offset ≤ i then bs[(i - p.offset).toNat]?.getD old else old
  next := mem.next
  fresh n hn i := by rw [mem.fresh n hn i, Option.map_none]

def writeBytes (mem : Memory) (p : Pointer) (bs : List Byte) : Option Memory :=
  if (mem.readBytes p bs.length).isSome then some (mem.overwrite p bs) else none

def nextBlock (mem : Memory) : Pointer := ⟨some (.heap mem.next), 0⟩

/-- Adds a block, whose bytes are not written yet. -/
def alloc (mem : Memory) (n : Nat) : Memory where
  byte? b i := if b = .heap mem.next then if 0 ≤ i ∧ i < n then some .unset else none else mem.byte? b i
  next := mem.next + 1
  fresh k hk i := by
    rw [if_neg (by simp; omega)]
    exact mem.fresh k (by omega) i

def load (mem : Memory) (ty : Ty) (p : Pointer) : Option Datum :=
  if ty.size ≠ 0 ∧ p.offset % ty.size = 0 then (mem.readBytes p ty.size).map (Datum.decode ty) else none

def store (mem : Memory) (ty : Ty) (p : Pointer) (d : Datum) : Option Memory :=
  if d.hasTy ty ∧ p.offset % ty.size = 0 then mem.writeBytes p (d.encode ty.size) else none

/-- Copies bytes; the two places must not overlap. -/
def copy (mem : Memory) (dst src : Pointer) (n : Nat) : Option Memory :=
  if dst.base ≠ src.base ∨ dst.offset + n ≤ src.offset ∨ src.offset + n ≤ dst.offset then do
    mem.writeBytes dst (← mem.readBytes src n)
  else none

/-! ### Reading -/

theorem readBytes_eq_some_iff :
    mem.readBytes p n = some bs ↔ bs.length = n ∧ ∀ i < n, mem.get (p.add i) = bs[i]? := by
  induction n generalizing p bs with
  | zero => simp [readBytes, eq_comm]
  | succ n ih =>
    have hnext : ∀ i : Nat, (p.add 1).add i = p.add (i + 1 : Nat) := fun i => by
      rw [Pointer.add_add, Int.add_comm]
      rfl
    constructor
    · intro h
      obtain ⟨x, hx, h⟩ := Option.bind_eq_some_iff.1 h
      obtain ⟨xs, hxs, h⟩ := Option.bind_eq_some_iff.1 h
      cases h
      obtain ⟨hlength, hget⟩ := ih.1 hxs
      refine ⟨congrArg (· + 1) hlength, fun i hi => ?_⟩
      cases i with
      | zero => simpa using hx
      | succ i => rw [← hnext, hget i (by omega), List.getElem?_cons_succ]
    · rintro ⟨hlength, hget⟩
      cases bs with
      | nil => cases hlength
      | cons x xs =>
        have hx : mem.get p = some x := by simpa using hget 0 (by omega)
        have hxs : mem.readBytes (p.add 1) n = some xs :=
          ih.2 ⟨by simpa using hlength, fun i hi => by
            rw [hnext, hget (i + 1) (by omega), List.getElem?_cons_succ]⟩
        simp [readBytes, hx, hxs]

theorem readBytes_isSome_iff :
    (mem.readBytes p n).isSome ↔ ∀ i < n, (mem.get (p.add i)).isSome := by
  constructor
  · intro h i hi
    obtain ⟨bs, hbs⟩ := Option.isSome_iff_exists.1 h
    obtain ⟨hlength, hget⟩ := readBytes_eq_some_iff.1 hbs
    rw [hget i hi, List.getElem?_eq_getElem (hlength.symm ▸ hi)]
    rfl
  · intro h
    have hall : ∀ i < n, mem.get (p.add i) = ((List.range n).map fun j : Nat =>
        (mem.get (p.add j)).getD .unset)[i]? := by
      intro i hi
      obtain ⟨x, hx⟩ := Option.isSome_iff_exists.1 (h i hi)
      simp [hi, hx]
    rw [readBytes_eq_some_iff.2 ⟨by simp, hall⟩]
    rfl

theorem readBytes_congr (h : ∀ i < n, mem'.get (q.add i) = mem.get (p.add i)) :
    mem'.readBytes q n = mem.readBytes p n := by
  ext bs
  rw [readBytes_eq_some_iff, readBytes_eq_some_iff]
  exact and_congr_right fun _ => forall₂_congr fun i hi => by rw [h i hi]

theorem load_congr (hoffset : q.offset % ty.size = 0 ↔ p.offset % ty.size = 0)
    (h : ∀ i < ty.size, mem'.get (q.add i) = mem.get (p.add i)) : mem'.load ty q = mem.load ty p := by
  simp only [load, hoffset, readBytes_congr h]

/-- A load that succeeds is aligned, and its bytes are there. -/
theorem load_spec (h : mem.load ty p = some d) :
    ty.size ≠ 0 ∧ p.offset % ty.size = 0 ∧ ∀ i < ty.size, (mem.get (p.add i)).isSome := by
  unfold load at h
  split_ifs at h with haligned
  obtain ⟨bs, hbs, -⟩ := Option.map_eq_some_iff.1 h
  exact ⟨haligned.1, haligned.2, readBytes_isSome_iff.1 (hbs ▸ rfl)⟩

/-! ### Writing -/

theorem get_overwrite (mem : Memory) (p q : Pointer) (bs : List Byte) :
    (mem.overwrite p bs).get q = (mem.get q).map fun old =>
      if p.base = q.base ∧ p.offset ≤ q.offset then bs[(q.offset - p.offset).toNat]?.getD old else old := by
  obtain ⟨base, offset⟩ := q
  cases base <;> rfl

theorem get_overwrite_add {i : Nat} (h : (mem.get (p.add i)).isSome) (hi : i < bs.length) :
    (mem.overwrite p bs).get (p.add i) = bs[i]? := by
  obtain ⟨x, hx⟩ := Option.isSome_iff_exists.1 h
  have hindex : (p.offset + i - p.offset).toNat = i := by omega
  rw [get_overwrite, hx, Option.map_some, if_pos ⟨rfl, by rw [Pointer.offset_add]; omega⟩,
    Pointer.offset_add, hindex, List.getElem?_eq_getElem hi]
  rfl

theorem get_overwrite_apart
    (h : p.base ≠ q.base ∨ q.offset < p.offset ∨ p.offset + bs.length ≤ q.offset) :
    (mem.overwrite p bs).get q = mem.get q := by
  rw [get_overwrite]
  cases mem.get q with
  | none => rfl
  | some x =>
    rw [Option.map_some]
    split_ifs with hin
    · have hoffset := h.resolve_left (absurd hin.1)
      rw [List.getElem?_eq_none (by omega)]
      rfl
    · rfl

theorem overwrite_get_isSome : ((mem.overwrite p bs).get q).isSome = (mem.get q).isSome := by
  rw [get_overwrite, Option.isSome_map]

theorem writeBytes_eq (h : ∀ i < bs.length, (mem.get (p.add i)).isSome) :
    mem.writeBytes p bs = some (mem.overwrite p bs) :=
  if_pos (readBytes_isSome_iff.2 h)

theorem store_eq (hty : d.hasTy ty = true) (hoffset : p.offset % ty.size = 0)
    (h : ∀ i < ty.size, (mem.get (p.add i)).isSome) :
    mem.store ty p d = some (mem.overwrite p (d.encode ty.size)) := by
  rw [store, if_pos ⟨hty, hoffset⟩]
  exact writeBytes_eq (by rwa [Datum.length_encode])

theorem load_overwrite_same (hty : d.hasTy ty = true) (hoffset : p.offset % ty.size = 0)
    (h : ∀ i < ty.size, (mem.get (p.add i)).isSome) :
    (mem.overwrite p (d.encode ty.size)).load ty p = some d := by
  have hbytes : (mem.overwrite p (d.encode ty.size)).readBytes p ty.size = some (d.encode ty.size) :=
    readBytes_eq_some_iff.2 ⟨d.length_encode _, fun i hi =>
      get_overwrite_add (h i hi) (by rwa [Datum.length_encode])⟩
  have hsize : ty.size ≠ 0 := by
    intro hzero
    cases ty <;> cases d <;> simp_all [Datum.hasTy, Ty.size, Ty.bits?, Ty.isPtr]
  rw [load, if_pos ⟨hsize, hoffset⟩, hbytes, Option.map_some, Datum.decode_encode hty]

theorem load_overwrite_apart
    (h : p.base ≠ q.base ∨ q.offset + ty.size ≤ p.offset ∨ p.offset + bs.length ≤ q.offset) :
    (mem.overwrite p bs).load ty q = mem.load ty q := by
  refine load_congr Iff.rfl fun i hi => get_overwrite_apart (h.imp_right fun h => ?_)
  rw [Pointer.offset_add]
  omega

theorem copy_eq (mem : Memory) {p q : Pointer}
    (hapart : p.base ≠ q.base ∨ p.offset + n ≤ q.offset ∨ q.offset + n ≤ p.offset)
    (hdst : ∀ i < n, (mem.get (p.add i)).isSome) (hsrc : ∀ i < n, (mem.get (q.add i)).isSome) :
    ∃ bs, mem.copy p q n = some (mem.overwrite p bs) ∧ bs.length = n ∧
      ∀ i < n, (mem.overwrite p bs).get (p.add i) = mem.get (q.add i) := by
  obtain ⟨bs, hbs⟩ := Option.isSome_iff_exists.1 (readBytes_isSome_iff.2 hsrc)
  obtain ⟨rfl, hget⟩ := readBytes_eq_some_iff.1 hbs
  refine ⟨bs, ?_, rfl, fun i hi => by rw [get_overwrite_add (hdst i hi) hi, hget i hi]⟩
  rw [copy, if_pos hapart, hbs]
  exact writeBytes_eq hdst

/-! ### New blocks -/

theorem get_alloc (mem : Memory) {i : Nat} (hi : i < n) :
    (mem.alloc n).get (mem.nextBlock.add i) = some .unset := by
  simp [alloc, get, nextBlock, hi]

theorem base_ne_of_get {k : Nat} (hk : mem.next ≤ k) (h : (mem.get q).isSome) : q.base ≠ some (.heap k) := by
  intro hbase
  rw [get, hbase, Option.bind_some, mem.fresh k hk] at h
  cases h

/-- All bytes that were there are there, unchanged. -/
structure Extends (mem mem' : Memory) : Prop where
  get : ∀ {p x}, mem.get p = some x → mem'.get p = some x
  next : mem.next ≤ mem'.next

namespace Extends

theorem trans (h : mem.Extends mem') (h' : mem'.Extends mem'') : mem.Extends mem'' :=
  ⟨fun hp => h'.get (h.get hp), Nat.le_trans h.next h'.next⟩

theorem get_eq (h : mem.Extends mem') (hp : (mem.get p).isSome) : mem'.get p = mem.get p := by
  obtain ⟨x, hx⟩ := Option.isSome_iff_exists.1 hp
  rw [hx, h.get hx]

theorem load (h : mem.Extends mem') (hp : mem.load ty p = some d) : mem'.load ty p = some d := by
  rw [← hp]
  exact load_congr Iff.rfl fun i hi => h.get_eq ((load_spec hp).2.2 i hi)

theorem alloc (mem : Memory) (n : Nat) : mem.Extends (mem.alloc n) := by
  refine ⟨fun {p x} hp => ?_, Nat.le_succ _⟩
  obtain ⟨b, hb, hx⟩ := Option.bind_eq_some_iff.1 hp
  have hne : b ≠ .heap mem.next := by
    rintro rfl
    exact base_ne_of_get (Nat.le_refl _) (hp ▸ rfl) hb
  rw [Memory.get, hb, Option.bind_some]
  exact (if_neg hne).trans hx

theorem overwrite {k : Nat} (h : mem.Extends mem') (hp : p.base = some (.heap k)) (hk : mem.next ≤ k)
    (bs : List Byte) : mem.Extends (mem'.overwrite p bs) := by
  refine ⟨fun {q x} hq => ?_, h.next⟩
  rw [get_overwrite_apart (.inl ?_), h.get hq]
  rw [hp]
  exact (base_ne_of_get hk (hq ▸ rfl)).symm

end Extends

end Memory

end ChocoCompiler.Ir
