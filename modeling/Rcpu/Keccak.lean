import Rcpu.ByteStream
import Rcpu.CheckedMemory
import Rcpu.Radix
import Rcpu.Sponge

/-!
# Keccak

`keccak.cpp`: the permutation, and the streaming hashers `CKeccak256` and `CKeccak512` with their
buffer.  Both are compared with the sponge that takes the padded message at once.
-/

namespace Rcpu.Keccak

open ByteStream CheckedMemory Sponge

/-! ### The permutation -/

abbrev State := Vector UInt64 25

def rotl64 (x : UInt64) (n : UInt64) : UInt64 := (x <<< n) ||| (x >>> (64 - n))

def KECCAK_RHO : Vector UInt64 24 :=
  #v[1, 3, 6, 10, 15, 21, 28, 36, 45, 55, 2, 14,
    27, 41, 56, 8, 25, 43, 62, 18, 39, 61, 20, 44]

def KECCAK_PI : Vector (Fin 25) 24 :=
  #v[10, 7, 11, 17, 18, 3, 5, 16, 8, 21, 24, 4,
    15, 23, 19, 13, 12, 2, 20, 14, 22, 9, 6, 1]

def KECCAK_RC : Vector UInt64 24 :=
  #v[0x0000000000000001, 0x0000000000008082,
    0x800000000000808a, 0x8000000080008000,
    0x000000000000808b, 0x0000000080000001,
    0x8000000080008081, 0x8000000000008009,
    0x000000000000008a, 0x0000000000000088,
    0x0000000080008009, 0x000000008000000a,
    0x000000008000808b, 0x800000000000008b,
    0x8000000000008089, 0x8000000000008003,
    0x8000000000008002, 0x8000000000000080,
    0x000000000000800a, 0x800000008000000a,
    0x8000000080008081, 0x8000000000008080,
    0x0000000080000001, 0x8000000080008008]

def theta (st : State) : State :=
  let bc : Vector UInt64 5 := Vector.ofFn fun i =>
    st[i.val] ^^^ st[i.val + 5] ^^^ st[i.val + 10] ^^^ st[i.val + 15] ^^^ st[i.val + 20]
  Nat.fold 5 (fun i _ st =>
    let t := bc[(i + 4) % 5] ^^^ rotl64 bc[(i + 1) % 5] 1
    Nat.fold 5 (fun j _ st => st.set (5 * j + i) (st[5 * j + i] ^^^ t)) st) st

/-- The lanes move along one cycle; `t` is the lane in hand. -/
def rhoPi (st : State) : State :=
  (Nat.fold 24 (fun i _ (acc : State × UInt64) =>
    let j := KECCAK_PI[i]
    (acc.1.set j (rotl64 acc.2 KECCAK_RHO[i]), acc.1[j])) (st, st[1])).1

def chi (st : State) : State :=
  Nat.fold 5 (fun j _ st =>
    let row : Vector UInt64 5 := Vector.ofFn fun i => st[5 * j + i.val]
    Nat.fold 5 (fun i _ st =>
      st.set (5 * j + i) (st[5 * j + i] ^^^ (~~~row[(i + 1) % 5] &&& row[(i + 2) % 5]))) st) st

def keccakf (st : State) : State :=
  Nat.fold 24 (fun round _ st =>
    let st := chi (rhoPi (theta st))
    st.set 0 (st[0] ^^^ KECCAK_RC[round])) st

/-! ### Blocks -/

/-- `load64` of the eight bytes from `off` on. -/
def load64 (x : Bytes) (off : Nat) : UInt64 :=
  Nat.fold 8 (fun i _ r => r ||| (x.getD (off + i) 0).toUInt64 <<< UInt64.ofNat (8 * i)) 0

def store64 (u : UInt64) : Bytes :=
  (List.range 8).map fun i => (u >>> UInt64.ofNat (8 * i)).toUInt8

/-- `st[i] ^= v`. -/
def xorLane (st : State) (i : Nat) (v : UInt64) : State :=
  if h : i < 25 then st.set i (st[i] ^^^ v) else st

def keccakAbsorbBlock (rate : Nat) (st : State) (block : Bytes) : State :=
  keccakf (Nat.fold (rate / 8) (fun i _ st => xorLane st i (load64 block (8 * i))) st)

/-! ### The hashers -/

structure CKeccak (RATE OUTPUT_SIZE : Nat) where
  m_state : State
  m_buf : Bytes
  m_buflen : Nat
  buf_length : m_buf.length = RATE
  buflen_lt : m_buflen < RATE

abbrev CKeccak256 := CKeccak 136 32

abbrev CKeccak512 := CKeccak 72 64

def zeroState : State := Vector.replicate 25 0

namespace CKeccak

variable {RATE OUTPUT_SIZE : Nat}

/-- The constructor; it leaves `m_buf` as it finds it. -/
def new [NeZero RATE] (buf : Bytes) (hbuf : buf.length = RATE) : CKeccak RATE OUTPUT_SIZE where
  m_state := zeroState
  m_buf := buf
  m_buflen := 0
  buf_length := hbuf
  buflen_lt := Nat.pos_of_neZero RATE

def reset (h : CKeccak RATE OUTPUT_SIZE) : CKeccak RATE OUTPUT_SIZE where
  m_state := zeroState
  m_buf := List.replicate RATE 0
  m_buflen := 0
  buf_length := List.length_replicate
  buflen_lt := Nat.zero_lt_of_lt h.buflen_lt

def take (h : CKeccak RATE OUTPUT_SIZE) (piece : Bytes) (hfit : h.m_buflen + piece.length ≤ RATE) :
    CKeccak RATE OUTPUT_SIZE :=
  have hlength : (splice h.m_buf h.m_buflen piece).length = RATE := by
    rw [length_splice (by rw [h.buf_length]; exact hfit), h.buf_length]
  if hfull : h.m_buflen + piece.length = RATE then
    { m_state := keccakAbsorbBlock RATE h.m_state (splice h.m_buf h.m_buflen piece)
      m_buf := splice h.m_buf h.m_buflen piece
      m_buflen := 0
      buf_length := hlength
      buflen_lt := Nat.zero_lt_of_lt h.buflen_lt }
  else
    { m_state := h.m_state
      m_buf := splice h.m_buf h.m_buflen piece
      m_buflen := h.m_buflen + piece.length
      buf_length := hlength
      buflen_lt := Nat.lt_of_le_of_ne hfit hfull }

/-- The loop of `Write`; every round takes at least one byte. -/
def writeLoop : Nat → CKeccak RATE OUTPUT_SIZE → Bytes → CKeccak RATE OUTPUT_SIZE
  | 0, h, _ => h
  | n + 1, h, data =>
    if data.length > 0 then
      let len := min (RATE - h.m_buflen) data.length
      have hfit : h.m_buflen + (data.take len).length ≤ RATE := by
        have := h.buflen_lt
        rw [List.length_take]
        omega
      writeLoop n (h.take (data.take len) hfit) (data.drop len)
    else h

def write (h : CKeccak RATE OUTPUT_SIZE) (data : Bytes) : CKeccak RATE OUTPUT_SIZE :=
  writeLoop data.length h data

def finalize (h : CKeccak RATE OUTPUT_SIZE) : Bytes × CKeccak RATE OUTPUT_SIZE :=
  let buf := splice h.m_buf h.m_buflen (List.replicate (RATE - h.m_buflen) 0)
  let buf := buf.modify h.m_buflen (· ^^^ 0x01)
  let buf := buf.modify (RATE - 1) (· ^^^ 0x80)
  let st := keccakAbsorbBlock RATE h.m_state buf
  ((List.range (OUTPUT_SIZE / 8)).flatMap fun i => store64 (st[i]?.getD 0), h.reset)

end CKeccak

/-! ### The sponge -/

/-- A block is added to the first lanes, which are permuted with the rest. -/
def absorb (st : State) (block : Bytes) : State :=
  keccakf (Vector.ofFn fun i => st[i] ^^^ UInt64.ofNat (ofLeBytes (slice block (8 * i.val) 8)))

/-- The bits `10…01` that fill up the last block; in one byte they are `0x81`. -/
def padding (rate len : Nat) : Bytes :=
  let q := rate - len % rate
  if q = 1 then [0x81] else 0x01 :: (List.replicate (q - 2) 0 ++ [0x80])

/-- The whole message at once: the first bytes of the state after the padded message. -/
def sponge (rate outputSize : Nat) (data : Bytes) : Bytes :=
  let st := absorbAll absorb rate zeroState (data ++ padding rate data.length)
  (st.toList.flatMap fun lane => leBytes 8 lane.toNat).take outputSize

/-! ### Lanes and bytes -/

theorem load64_eq {x : Bytes} {off : Nat} (h : off + 8 ≤ x.length) :
    load64 x off = UInt64.ofNat (ofLeBytes (slice x off 8)) := by
  have hfold : (load64 x off).toNat = ofLeBytes (slice x off 8) := by
    apply Radix.fold_induction (P := fun k (r : UInt64) => r.toNat = ofLeBytes (slice x off k))
    · rfl
    · intro i hi r hr
      have hbyte := (x.getD (off + i) 0).toNat_lt
      have hlen : (slice x off i).length = i := length_slice (by omega)
      have hlt : r.toNat < 2 ^ (8 * i) := by
        rw [hr, Nat.pow_mul]
        have := ofLeBytes_lt (slice x off i)
        rwa [hlen] at this
      have hshift : ((x.getD (off + i) 0).toUInt64 <<< UInt64.ofNat (8 * i)).toNat
          = (x.getD (off + i) 0).toNat <<< (8 * i) := by
        rw [UInt64.toNat_shiftLeft, UInt64.toNat_ofNat', UInt8.toNat_toUInt64,
          Nat.mod_eq_of_lt (by omega : 8 * i < 2 ^ 64), Nat.mod_eq_of_lt (by omega : 8 * i < 64)]
        apply Nat.mod_eq_of_lt
        calc (x.getD (off + i) 0).toNat <<< (8 * i) < 2 ^ 8 * 2 ^ (8 * i) := by
              rw [Nat.shiftLeft_eq]
              exact Nat.mul_lt_mul_of_pos_right hbyte (Nat.two_pow_pos _)
          _ ≤ 2 ^ 64 := by
              rw [← Nat.pow_add]
              exact Nat.pow_le_pow_right (by decide) (by omega)
      rw [UInt64.toNat_or, hshift, Nat.or_comm, ← Nat.shiftLeft_add_eq_or_of_lt hlt,
        slice_succ (by omega) 0, ofLeBytes_concat, hlen, hr, Nat.shiftLeft_eq, Nat.mul_comm, Nat.pow_mul,
        Nat.add_comm]
  rw [← hfold, UInt64.ofNat_toNat]

theorem store64_eq (u : UInt64) : store64 u = leBytes 8 u.toNat := by
  rw [store64, leBytes_eq_map]
  apply List.map_congr_left
  intro i hi
  rw [List.mem_range] at hi
  apply UInt8.toNat_inj.mp
  rw [UInt64.toNat_toUInt8, UInt64.toNat_shiftRight, UInt64.toNat_ofNat', UInt8.toNat_ofNat',
    Nat.mod_eq_of_lt (by omega : 8 * i < 2 ^ 64), Nat.mod_eq_of_lt (by omega : 8 * i < 64),
    Nat.shiftRight_eq_div_pow, Nat.pow_mul]

theorem getElem_xorLane (st : State) (i : Nat) (v : UInt64) {j : Nat} (hj : j < 25) :
    (xorLane st i v)[j] = if j = i then st[j] ^^^ v else st[j] := by
  rw [xorLane]
  by_cases hi : i < 25
  · rw [dif_pos hi, Vector.getElem_set]
    by_cases hij : j = i
    · subst hij
      rw [if_pos rfl]
    · rw [if_neg (Ne.symm hij), if_neg hij]
  · have hij : j ≠ i := by omega
    rw [dif_neg hi, if_neg hij]

/-- The loop over the lanes of a block touches every one of them once. -/
theorem fold_xorLane (st : State) (v : Nat → UInt64) (lanes : Nat) {j : Nat} (hj : j < 25) :
    (Nat.fold lanes (fun i _ st => xorLane st i (v i)) st)[j]
      = if j < lanes then st[j] ^^^ v j else st[j] := by
  apply Radix.fold_induction (P := fun k (r : State) => r[j] = if j < k then st[j] ^^^ v j else st[j])
  · rw [if_neg (Nat.not_lt_zero j)]
  · intro i hi r hr
    rw [getElem_xorLane, hr]
    by_cases hij : j = i
    · subst hij
      rw [if_pos rfl, if_neg (Nat.lt_irrefl j), if_pos (Nat.lt_succ_self j)]
    · have hlt : j < i + 1 ↔ j < i := by omega
      rw [if_neg hij, if_congr hlt rfl rfl]

theorem keccakAbsorbBlock_eq {rate : Nat} (h8 : 8 ∣ rate) {block : Bytes}
    (hblock : block.length = rate) (st : State) : keccakAbsorbBlock rate st block = absorb st block := by
  obtain ⟨lanes, rfl⟩ := h8
  have hlanes : Nat.fold (8 * lanes / 8) (fun i _ st => xorLane st i (load64 block (8 * i))) st
      = Vector.ofFn fun i => st[i] ^^^ UInt64.ofNat (ofLeBytes (slice block (8 * i.val) 8)) := by
    apply Vector.ext
    intro j hj
    rw [Nat.mul_div_cancel_left lanes (by decide), fold_xorLane st _ lanes hj, Vector.getElem_ofFn]
    by_cases hlane : j < lanes
    · rw [if_pos hlane, load64_eq (by omega)]
      rfl
    · have hnil : slice block (8 * j) 8 = [] := by
        rw [slice, List.drop_eq_nil_of_le (by omega), List.take_nil]
      rw [if_neg hlane, hnil]
      exact (UInt64.xor_zero).symm
  rw [keccakAbsorbBlock, hlanes, absorb]

theorem take_flatMap {α β : Type} {f : α → List β} {w : Nat} (l : List α)
    (hf : ∀ x ∈ l, (f x).length = w) (k : Nat) : (l.flatMap f).take (w * k) = (l.take k).flatMap f := by
  induction l generalizing k with
  | nil => rw [List.take_nil, List.flatMap_nil, List.take_nil]
  | cons x l ih =>
    cases k with
    | zero => rw [Nat.mul_zero, List.take_zero, List.take_zero, List.flatMap_nil]
    | succ k =>
      have hx := hf x List.mem_cons_self
      rw [List.flatMap_cons, List.take_succ_cons, List.flatMap_cons, Nat.mul_succ, Nat.add_comm, ← hx,
        List.take_length_add_append, hx, ih fun y hy => hf y (List.mem_cons_of_mem x hy)]

/-- The lanes that are written out are the first bytes of the state. -/
theorem squeeze_eq {outputSize : Nat} (h8 : 8 ∣ outputSize) (hle : outputSize ≤ 200) (st : State) :
    ((List.range (outputSize / 8)).flatMap fun i => store64 (st[i]?.getD 0))
      = (st.toList.flatMap fun lane => leBytes 8 lane.toNat).take outputSize := by
  obtain ⟨k, rfl⟩ := h8
  rw [take_flatMap _ (fun lane _ => length_leBytes 8 lane.toNat), Nat.mul_div_cancel_left k (by decide)]
  have hlanes : (List.range k).map (fun i => st[i]?.getD 0) = st.toList.take k := by
    apply List.ext_getElem
    · rw [List.length_map, List.length_range, List.length_take, Vector.length_toList]
      omega
    · intro i h1 h2
      rw [List.length_map, List.length_range] at h1
      rw [List.getElem_map, List.getElem_range, List.getElem_take, Vector.getElem_toList,
        Vector.getElem?_eq_getElem (by omega)]
      rfl
  rw [← hlanes, List.flatMap_map]
  simp only [store64_eq]

/-! ### The last block -/

theorem modify_append_right {α : Type} (l₁ l₂ : List α) (i : Nat) (f : α → α) :
    (l₁ ++ l₂).modify (l₁.length + i) f = l₁ ++ l₂.modify i f := by
  induction l₁ with
  | nil => rw [List.length_nil, Nat.zero_add, List.nil_append, List.nil_append]
  | cons x l₁ ih =>
    rw [List.length_cons, Nat.add_right_comm, List.cons_append, List.modify_succ_cons, ih,
      List.cons_append]

/-- The two bits that `Finalize` sets in the zeros after the buffered bytes are the padding. -/
theorem padding_eq {rate len : Nat} {tail : Bytes} (hlen : tail.length = len % rate)
    (hlt : tail.length < rate) :
    ((tail ++ List.replicate (rate - tail.length) 0).modify tail.length (· ^^^ 0x01)).modify (rate - 1)
      (· ^^^ 0x80) = tail ++ padding rate len := by
  obtain ⟨q, hq⟩ := Nat.exists_eq_add_of_lt hlt
  have hfirst : (tail ++ 0 :: List.replicate q 0).modify tail.length (· ^^^ 0x01)
      = tail ++ 0x01 :: List.replicate q 0 := modify_append_right tail (0 :: List.replicate q 0) 0 _
  have hlast : rate - 1 = tail.length + q := by omega
  have hcount : rate - tail.length = q + 1 := by omega
  rw [hcount, List.replicate_succ, hfirst, hlast, modify_append_right, padding, ← hlen, hcount]
  congr 1
  cases q with
  | zero => rfl
  | succ k =>
    have hzeros := modify_append_right (List.replicate k (0 : UInt8)) [0] 0 (· ^^^ 0x80)
    rw [List.length_replicate, Nat.add_zero, ← List.replicate_succ'] at hzeros
    rw [List.modify_succ_cons, hzeros, if_neg (by omega)]
    rfl

/-! ### What a hasher holds -/

namespace CKeccak

variable {RATE OUTPUT_SIZE : Nat}

/-- The object has absorbed the full blocks of `data` and keeps the rest in its buffer. -/
def Holds (h : CKeccak RATE OUTPUT_SIZE) (data : Bytes) : Prop :=
  Absorbed absorb RATE zeroState data h.m_state (h.m_buf.take h.m_buflen)

theorem holds_new [NeZero RATE] {buf : Bytes} (hbuf : buf.length = RATE) :
    Holds (new buf hbuf : CKeccak RATE OUTPUT_SIZE) [] :=
  absorbed_nil (Nat.pos_of_neZero RATE)

theorem holds_reset (h : CKeccak RATE OUTPUT_SIZE) : Holds h.reset [] :=
  absorbed_nil (Nat.zero_lt_of_lt h.buflen_lt)

variable {h : CKeccak RATE OUTPUT_SIZE} {data : Bytes}

theorem length_buffered (h : CKeccak RATE OUTPUT_SIZE) :
    (h.m_buf.take h.m_buflen).length = h.m_buflen := by
  rw [List.length_take, h.buf_length, Nat.min_eq_left (Nat.le_of_lt h.buflen_lt)]

section Write

variable (h8 : 8 ∣ RATE) (hh : Holds h data)
include h8 hh

theorem holds_take {piece : Bytes} (hfit : h.m_buflen + piece.length ≤ RATE) :
    Holds (h.take piece hfit) (data ++ piece) := by
  have hlen := length_buffered h
  have hbuf := h.buf_length
  rw [take]
  by_cases hfull : h.m_buflen + piece.length = RATE
  · have hblock : splice h.m_buf h.m_buflen piece = h.m_buf.take h.m_buflen ++ piece :=
      splice_of_eq (by rw [hbuf, hfull])
    have hrate : (h.m_buf.take h.m_buflen ++ piece).length = RATE := by
      rw [List.length_append, hlen, hfull]
    rw [dif_pos hfull]
    show Absorbed absorb RATE zeroState (data ++ piece)
      (keccakAbsorbBlock RATE h.m_state (splice h.m_buf h.m_buflen piece)) []
    rw [hblock, keccakAbsorbBlock_eq h8 hrate]
    exact hh.block hrate (Nat.zero_lt_of_lt h.buflen_lt)
  · rw [dif_neg hfull, Holds, take_splice (by rw [hbuf]; exact Nat.le_of_lt h.buflen_lt)]
    exact hh.append (by rw [hlen]; omega)

theorem holds_writeLoop {n : Nat} {piece : Bytes} (hn : piece.length ≤ n) :
    Holds (writeLoop n h piece) (data ++ piece) := by
  induction n generalizing h data piece with
  | zero =>
    rw [writeLoop, List.eq_nil_of_length_eq_zero (Nat.le_zero.mp hn), List.append_nil]
    exact hh
  | succ n ih =>
    rw [writeLoop]
    by_cases hmore : piece.length > 0
    · have hlt := h.buflen_lt
      rw [if_pos hmore]
      have hfit : h.m_buflen + (piece.take (min (RATE - h.m_buflen) piece.length)).length ≤ RATE := by
        rw [List.length_take]
        omega
      have hrest : (piece.drop (min (RATE - h.m_buflen) piece.length)).length ≤ n := by
        rw [List.length_drop]
        omega
      have hnext := ih (holds_take h8 hh hfit) hrest
      rwa [List.append_assoc, List.take_append_drop] at hnext
    · rw [if_neg hmore, List.eq_nil_of_length_eq_zero (Nat.le_zero.mp (Nat.not_lt.mp hmore)),
        List.append_nil]
      exact hh

theorem holds_write (piece : Bytes) : Holds (h.write piece) (data ++ piece) :=
  holds_writeLoop h8 hh (Nat.le_refl _)

end Write

theorem finalize_eq (h8 : 8 ∣ RATE) (hout : 8 ∣ OUTPUT_SIZE) (hle : OUTPUT_SIZE ≤ 200)
    (hh : Holds h data) : h.finalize = (sponge RATE OUTPUT_SIZE data, h.reset) := by
  have hlen := length_buffered h
  have hlt := h.buflen_lt
  have hzeros : splice h.m_buf h.m_buflen (List.replicate (RATE - h.m_buflen) 0)
      = h.m_buf.take h.m_buflen ++ List.replicate (RATE - h.m_buflen) 0 := by
    apply splice_of_eq
    rw [List.length_replicate, h.buf_length]
    omega
  have hpad := padding_eq hh.length_tail (hlen.symm ▸ hlt)
  have hrate : (h.m_buf.take h.m_buflen ++ padding RATE data.length).length = RATE := by
    rw [← hpad, List.length_modify, List.length_modify, List.length_append, List.length_replicate]
    omega
  rw [hlen, ← hzeros] at hpad
  rw [finalize, sponge, ← squeeze_eq hout hle,
    ← hh.finish hrate (Nat.zero_lt_of_lt hlt), ← keccakAbsorbBlock_eq h8 hrate, ← hpad]

end CKeccak

/-! ### Runs -/

inductive Call where
  | write (data : Bytes)
  | finalize
  | reset

def CKeccak.outputs {RATE OUTPUT_SIZE : Nat} : CKeccak RATE OUTPUT_SIZE → List Call → List Bytes
  | _, [] => []
  | h, .write data :: calls => outputs (h.write data) calls
  | h, .finalize :: calls => h.finalize.1 :: outputs h.finalize.2 calls
  | h, .reset :: calls => outputs h.reset calls

def digests (rate outputSize : Nat) : Bytes → List Call → List Bytes
  | _, [] => []
  | data, .write piece :: calls => digests rate outputSize (data ++ piece) calls
  | data, .finalize :: calls => sponge rate outputSize data :: digests rate outputSize [] calls
  | _, .reset :: calls => digests rate outputSize [] calls

namespace CKeccak

variable {RATE OUTPUT_SIZE : Nat} {h : CKeccak RATE OUTPUT_SIZE} {data : Bytes} (h8 : 8 ∣ RATE)
  (hh : Holds h data)
include h8 hh

theorem outputs_eq (hout : 8 ∣ OUTPUT_SIZE) (hle : OUTPUT_SIZE ≤ 200) (calls : List Call) :
    h.outputs calls = digests RATE OUTPUT_SIZE data calls := by
  induction calls generalizing h data with
  | nil => rfl
  | cons call calls ih =>
    cases call with
    | write piece => exact ih (holds_write h8 hh piece)
    | finalize =>
      rw [outputs, digests, finalize_eq h8 hout hle hh, ih (holds_reset h)]
    | reset => exact ih (holds_reset h)

theorem holds_foldl_write (pieces : List Bytes) :
    Holds (pieces.foldl write h) (data ++ pieces.flatten) := by
  induction pieces generalizing h data with
  | nil =>
    rw [List.flatten_nil, List.append_nil]
    exact hh
  | cons piece pieces ih =>
    rw [List.foldl_cons, List.flatten_cons, ← List.append_assoc]
    exact ih (holds_write h8 hh piece)

omit hh in
/-- The digest of a message written in pieces, and what the object does afterwards. -/
theorem finalize_foldl_write [NeZero RATE] (hout : 8 ∣ OUTPUT_SIZE) (hle : OUTPUT_SIZE ≤ 200)
    (pieces : List Bytes) {buf buf' : Bytes} (hbuf : buf.length = RATE) (hbuf' : buf'.length = RATE) :
    (pieces.foldl write (new buf hbuf : CKeccak RATE OUTPUT_SIZE)).finalize.1
        = sponge RATE OUTPUT_SIZE pieces.flatten ∧
      ∀ calls, (pieces.foldl write (new buf hbuf : CKeccak RATE OUTPUT_SIZE)).finalize.2.outputs calls
        = (new buf' hbuf' : CKeccak RATE OUTPUT_SIZE).outputs calls := by
  have hall : Holds (pieces.foldl write (new buf hbuf : CKeccak RATE OUTPUT_SIZE)) pieces.flatten :=
    holds_foldl_write h8 (holds_new hbuf) pieces
  rw [finalize_eq h8 hout hle hall]
  refine ⟨rfl, fun calls => ?_⟩
  rw [outputs_eq h8 (holds_reset _) hout hle, outputs_eq h8 (holds_new hbuf') hout hle]

end CKeccak

/-- Both hashers return the digest of the sponge however the message is cut, whatever their buffer held
when they were made, and are afterwards as new. -/
theorem digest_eq_sponge (pieces : List Bytes) :
    (∀ (buf buf' : Bytes) (hbuf : buf.length = 136) (hbuf' : buf'.length = 136),
      (pieces.foldl CKeccak.write (CKeccak.new buf hbuf : CKeccak256)).finalize.1
          = sponge 136 32 pieces.flatten ∧
        ∀ calls,
          (pieces.foldl CKeccak.write (CKeccak.new buf hbuf : CKeccak256)).finalize.2.outputs calls
            = (CKeccak.new buf' hbuf' : CKeccak256).outputs calls) ∧
    (∀ (buf buf' : Bytes) (hbuf : buf.length = 72) (hbuf' : buf'.length = 72),
      (pieces.foldl CKeccak.write (CKeccak.new buf hbuf : CKeccak512)).finalize.1
          = sponge 72 64 pieces.flatten ∧
        ∀ calls,
          (pieces.foldl CKeccak.write (CKeccak.new buf hbuf : CKeccak512)).finalize.2.outputs calls
            = (CKeccak.new buf' hbuf' : CKeccak512).outputs calls) := by
  constructor
  · intro _ _ hbuf hbuf'
    exact CKeccak.finalize_foldl_write (by decide) (by decide) (by decide) pieces hbuf hbuf'
  · intro _ _ hbuf hbuf'
    exact CKeccak.finalize_foldl_write (by decide) (by decide) (by decide) pieces hbuf hbuf'

/-- Three bytes in three calls, one of them empty. -/
theorem digest_eq_sponge_abc :
    ((((CKeccak.new (List.replicate 136 0xff) rfl : CKeccak256).write [0x61]).write []).write
      [0x62, 0x63]).finalize.1 = sponge 136 32 [0x61, 0x62, 0x63] :=
  ((digest_eq_sponge [[0x61], [], [0x62, 0x63]]).1 (List.replicate 136 0xff) (List.replicate 136 0) rfl
    rfl).1

end Rcpu.Keccak
