import Rcpu.Bech32
import Rcpu.Solver

/-!
# Confidential addresses

`EncodeConfidentialAddress` and `DecodeConfidentialAddress` of `key_io.cpp`: the witness program of
a P2WPKH destination together with the public key it is the hash of, as one Bech32m string.
HASH160 is a parameter.
-/

namespace Rcpu.ConfidentialAddress

open ByteStream Solver Bech32

def CONF_ADDR_VERSION_P2WPKH : UInt8 := 0

def CONF_ADDR_PROGRAM_LEN : Nat := 20

/-- `CPubKey::COMPRESSED_SIZE` -/
def CONF_ADDR_PUBKEY_LEN : Nat := 33

inductive ChainType where
  | TESTNET
  | SIGNET
  | REGTEST
  | RCPUREGTEST
  | RCPUTESTNET
  | RCPUMAIN
deriving DecidableEq, Repr

def asciiBytes (s : String) : Bytes := s.toList.map fun c => UInt8.ofNat c.toNat

def asciiString (bs : Bytes) : String := String.ofList (bs.map fun b => Char.ofNat b.toNat)

/-- `ConfidentialBech32HRP`; the chains taken over from upstream leave it empty. -/
def ChainType.confidentialBech32HRP : ChainType → Bytes
  | TESTNET | SIGNET | REGTEST => []
  | RCPUREGTEST => asciiBytes "rrcpux"
  | RCPUTESTNET => asciiBytes "trcpux"
  | RCPUMAIN => asciiBytes "rcpux"

/-- A P2WPKH spend program and the public key amounts are blinded to. -/
structure ConfidentialKeyHash where
  m_spend : Bytes
  m_blinding : Bytes
deriving DecidableEq, Repr

section Address

variable (hash160 : Bytes → Bytes) (chain : ChainType)

/-- The empty string stands for a destination or a key that has no confidential address. -/
def encodeConfidentialAddress (dest : CTxDestination) (pubkey : Bytes) : Except String Bytes :=
  match dest with
  | .WitnessV0KeyHash keyid =>
    if ¬ validSize pubkey ∨ pubkey.length ≠ CONF_ADDR_PUBKEY_LEN then .ok []
    else if hash160 pubkey ≠ keyid then .ok []
    else
      let payload := [CONF_ADDR_VERSION_P2WPKH] ++ keyid ++ pubkey
      match convertBits 8 5 true (payload.map UInt8.toNat) with
      | none => .ok []
      | some data => encode chain.confidentialBech32HRP (data.map UInt8.ofNat)
  | _ => .ok []

/-- The part of `DecodeConfidentialAddress` after the bytes are regrouped. -/
def decodePayload (payload : Bytes) : Except String (ConfidentialKeyHash × Bytes) :=
  let size := payload.length
  let version := payload.headD 0
  if size ≠ 1 + CONF_ADDR_PROGRAM_LEN + CONF_ADDR_PUBKEY_LEN then
    .error s!"Invalid payload size for confidential address ({size} bytes)"
  else if version ≠ CONF_ADDR_VERSION_P2WPKH then
    .error s!"Unsupported confidential address version ({version})"
  else
    let spend := (payload.drop 1).take CONF_ADDR_PROGRAM_LEN
    let pubkey := payload.drop (1 + CONF_ADDR_PROGRAM_LEN)
    if ¬ validSize pubkey ∨ pubkey.length ≠ CONF_ADDR_PUBKEY_LEN then
      .error "Invalid public key in confidential address"
    else if hash160 pubkey ≠ spend then
      .error "Public key does not match the spend program hash of the confidential address"
    else .ok (⟨spend, pubkey⟩, pubkey)

def decodeConfidentialAddress (str : Bytes) : Except String (ConfidentialKeyHash × Bytes) :=
  match confBech32mDecode str with
  | none => .error "Invalid checksum or encoding of confidential address"
  | some (hrp, data) =>
    if hrp ≠ chain.confidentialBech32HRP then
      let expected := asciiString chain.confidentialBech32HRP
      let got := asciiString hrp
      .error s!"Invalid or unsupported prefix for confidential address (expected {expected}, got {got})."
    else
      match convertBits 5 8 false (data.map UInt8.toNat) with
      | none => .error "Invalid padding in confidential address data"
      | some payload => decodePayload hash160 (payload.map UInt8.ofNat)

end Address

/-! ### The parts of an address -/

theorem map_ofNat_toNat (bs : Bytes) : (bs.map UInt8.toNat).map UInt8.ofNat = bs := by
  rw [List.map_map]
  exact List.map_id'' (fun b => UInt8.ofNat_toNat) bs

theorem map_toNat_ofNat {ds : List Nat} (hds : ∀ d ∈ ds, d < 2 ^ 8) :
    (ds.map UInt8.ofNat).map UInt8.toNat = ds := by
  rw [List.map_map]
  refine (List.map_congr_left ?_).trans (List.map_id ds)
  intro d hd
  exact UInt8.toNat_ofNat_of_lt' (hds d hd)

theorem decodePayload_eq_ok {hash160 : Bytes → Bytes} {payload pubkey : Bytes}
    {dest : ConfidentialKeyHash} :
    decodePayload hash160 payload = .ok (dest, pubkey) ↔
      payload = [CONF_ADDR_VERSION_P2WPKH] ++ dest.m_spend ++ pubkey ∧ dest.m_spend.length = 20 ∧
        dest.m_blinding = pubkey ∧ validSize pubkey = true ∧ pubkey.length = 33 ∧
        hash160 pubkey = dest.m_spend := by
  constructor
  · intro h
    simp only [decodePayload] at h
    split_ifs at h with hsize hversion hvalid hhash
    obtain ⟨rfl, rfl⟩ := Prod.mk.inj (Except.ok.inj h)
    rw [not_not] at hsize hversion hhash
    rw [not_or, not_not, not_not] at hvalid
    cases payload with
    | nil => cases hsize
    | cons version rest =>
      have hrest : rest.length = 53 := Nat.succ.inj hsize
      refine ⟨?_, ?_, rfl, hvalid.1, hvalid.2, hhash⟩
      · rw [← hversion]
        exact congrArg (version :: ·) (List.take_append_drop 20 rest).symm
      · show (rest.take 20).length = 20
        rw [List.length_take]
        omega
  · rintro ⟨rfl, hspend, rfl, hvalid, hlength, hhash⟩
    have htake : (dest.m_spend ++ dest.m_blinding).take 20 = dest.m_spend := by
      rw [← hspend, List.take_left]
    have hdrop : (dest.m_spend ++ dest.m_blinding).drop 20 = dest.m_blinding := by
      rw [← hspend, List.drop_left]
    have hsize : ([CONF_ADDR_VERSION_P2WPKH] ++ dest.m_spend ++ dest.m_blinding).length =
        1 + CONF_ADDR_PROGRAM_LEN + CONF_ADDR_PUBKEY_LEN := by
      rw [List.length_append, List.length_append, List.length_singleton, hspend, hlength]
      rfl
    have hversion : ([CONF_ADDR_VERSION_P2WPKH] ++ dest.m_spend ++ dest.m_blinding).headD 0 =
        CONF_ADDR_VERSION_P2WPKH := rfl
    have hkey : ¬ (¬ validSize dest.m_blinding = true ∨
        dest.m_blinding.length ≠ CONF_ADDR_PUBKEY_LEN) := by
      rw [not_or, not_not, not_not]
      exact ⟨hvalid, hlength⟩
    have hparts : (([CONF_ADDR_VERSION_P2WPKH] ++ dest.m_spend ++ dest.m_blinding).drop 1).take
        CONF_ADDR_PROGRAM_LEN = dest.m_spend ∧
        ([CONF_ADDR_VERSION_P2WPKH] ++ dest.m_spend ++ dest.m_blinding).drop
          (1 + CONF_ADDR_PROGRAM_LEN) = dest.m_blinding := by
      rw [Nat.add_comm]
      exact ⟨htake, hdrop⟩
    simp only [decodePayload, hparts.1, hparts.2]
    rw [if_neg (not_not.mpr hsize), if_neg (not_not.mpr hversion), if_neg hkey,
      if_neg (not_not.mpr hhash)]

section Spelling

variable {hash160 : Bytes → Bytes} {chain : ChainType}

theorem confidentialBech32HRP_chars (chain : ChainType) :
    (∀ uc ∈ chain.confidentialBech32HRP, 33 ≤ uc ∧ uc ≤ 126) ∧
      ¬ (chain.confidentialBech32HRP.any fun c => 0x41 ≤ c && c ≤ 0x5a) = true := by
  cases chain <;> decide +kernel

/-- A key has an address: the symbols its payload regroups to, with their checksum. -/
theorem encodeConfidentialAddress_eq {pubkey : Bytes} (hvalid : validSize pubkey = true)
    (hlength : pubkey.length = 33) :
    ∃ values : Bytes, (∀ v ∈ values, v < 32) ∧
      convertBits 8 5 true (([CONF_ADDR_VERSION_P2WPKH] ++ hash160 pubkey ++ pubkey).map
        UInt8.toNat) = some (values.map UInt8.toNat) ∧
      encodeConfidentialAddress hash160 chain (.WitnessV0KeyHash (hash160 pubkey)) pubkey =
        encode chain.confidentialBech32HRP values := by
  set payload := [CONF_ADDR_VERSION_P2WPKH] ++ hash160 pubkey ++ pubkey with hpayload
  have hbytes : ∀ v ∈ payload.map UInt8.toNat, v < 2 ^ 8 :=
    List.forall_mem_map.mpr fun b _ => b.toNat_lt
  obtain ⟨data, p, hdata, -, -, -, hdigits⟩ := convertBits_pad (t := 5) (by decide) hbytes
  have hsmall : ∀ d ∈ data, d < 2 ^ 8 := fun d hd => (hdigits d hd).trans (by decide)
  refine ⟨data.map UInt8.ofNat, ?_, by rw [hdata, map_toNat_ofNat hsmall], ?_⟩
  · rw [List.forall_mem_map]
    intro d hd
    rw [UInt8.lt_iff_toNat_lt, UInt8.toNat_ofNat_of_lt' (hsmall d hd)]
    exact hdigits d hd
  · rw [encodeConfidentialAddress, if_neg (by simp [hvalid, hlength, CONF_ADDR_PUBKEY_LEN]),
      if_neg (not_not.mpr rfl)]
    simp only [← hpayload, hdata]

theorem decodeConfidentialAddress_eq_ok {str pubkey : Bytes} {dest : ConfidentialKeyHash} :
    decodeConfidentialAddress hash160 chain str = .ok (dest, pubkey) ↔
      ∃ values payload, confBech32mDecode str = some (chain.confidentialBech32HRP, values) ∧
        convertBits 5 8 false (values.map UInt8.toNat) = some payload ∧
        decodePayload hash160 (payload.map UInt8.ofNat) = .ok (dest, pubkey) := by
  unfold decodeConfidentialAddress
  cases hdecode : confBech32mDecode str with
  | none => simp
  | some parts =>
    obtain ⟨hrp, values⟩ := parts
    by_cases hhrp : hrp = chain.confidentialBech32HRP
    · subst hhrp
      cases hconvert : convertBits 5 8 false (values.map UInt8.toNat) with
      | none => simp [hconvert]
      | some payload => simp [hconvert]
    · simp [hhrp]

/-- An address decodes to what it was made of, on a chain that has such addresses. -/
theorem decode_encodeConfidentialAddress (hsize : ∀ b, (hash160 b).length = 20) {pubkey : Bytes}
    (hvalid : validSize pubkey = true) (hlength : pubkey.length = 33) :
    (encodeConfidentialAddress hash160 chain (.WitnessV0KeyHash (hash160 pubkey)) pubkey >>=
        decodeConfidentialAddress hash160 chain) = .ok (⟨hash160 pubkey, pubkey⟩, pubkey) ↔
      chain.confidentialBech32HRP ≠ [] := by
  obtain ⟨hchars, hlower⟩ := confidentialBech32HRP_chars chain
  obtain ⟨values, hvalues, hconvert, hencode⟩ :=
    @encodeConfidentialAddress_eq hash160 chain pubkey hvalid hlength
  obtain ⟨str, hstr⟩ : ∃ str, encode chain.confidentialBech32HRP values = .ok str :=
    ⟨_, if_neg hlower⟩
  rw [hencode, hstr]
  show decodeConfidentialAddress hash160 chain str = _ ↔ _
  constructor
  · intro h
    obtain ⟨_, _, hdecode, -⟩ := decodeConfidentialAddress_eq_ok.mp h
    obtain ⟨_, _, -, -, hnil, -⟩ := confBech32mDecode_eq_some.mp hdecode
    exact hnil
  · intro hnil
    have hregroup := (convertBits_iff (by decide) (by decide) (List.forall_mem_map.mpr hvalues)
      (List.forall_mem_map.mpr fun b _ => b.toNat_lt)).mpr hconvert
    refine decodeConfidentialAddress_eq_ok.mpr ⟨values, _,
      (confBech32mDecode_encode hnil hchars hvalues hstr).1, hregroup, ?_⟩
    rw [map_ofNat_toNat]
    exact decodePayload_eq_ok.mpr ⟨rfl, hsize pubkey, rfl, hvalid, hlength, rfl⟩

/-- An accepted string is the address of what it decodes to, unless it has a NUL byte. -/
theorem encode_decodeConfidentialAddress {str pubkey : Bytes} {dest : ConfidentialKeyHash}
    (h : decodeConfidentialAddress hash160 chain str = .ok (dest, pubkey)) :
    encodeConfidentialAddress hash160 chain (.WitnessV0KeyHash dest.m_spend) pubkey = .ok str ↔
      0 ∉ str := by
  obtain ⟨hchars, hlower⟩ := confidentialBech32HRP_chars chain
  obtain ⟨values, payload, hdecode, hconvert, hpayload⟩ := decodeConfidentialAddress_eq_ok.mp h
  obtain ⟨hparts, -, -, hvalid, hlength, hhash⟩ := decodePayload_eq_ok.mp hpayload
  obtain ⟨_, _, -, -, hnil, -⟩ := confBech32mDecode_eq_some.mp hdecode
  obtain ⟨values', hvalues', hconvert', hencode⟩ :=
    @encodeConfidentialAddress_eq hash160 chain pubkey hvalid hlength
  rw [← hhash, hencode]
  constructor
  · intro hstr
    exact (confBech32mDecode_encode hnil hchars hvalues' hstr).2
  · intro hnul
    obtain ⟨hvalues, hstr⟩ := encode_confBech32mDecode hnul hlower hdecode
    have hsymbols : ∀ v ∈ values.map UInt8.toNat, v < 2 ^ 5 := List.forall_mem_map.mpr hvalues
    obtain ⟨_, -, -, -, -, hbytes⟩ := (convertBits_nopad (by decide) hsymbols).mp hconvert
    have hpad := (convertBits_iff (by decide) (by decide) hsymbols hbytes).mp hconvert
    rw [← map_toNat_ofNat hbytes, hparts, ← hhash, hconvert', Option.some.injEq] at hpad
    have hsame : values' = values := by
      rw [← map_ofNat_toNat values', hpad, map_ofNat_toNat]
    rw [hsame, hstr]

/-- **Confidential addresses and their spellings**: an address decodes to its key and program, and a
string that does so too is that address just when it has no NUL byte. -/
theorem confidentialAddress_spelling_iff (hsize : ∀ b, (hash160 b).length = 20) :
    (∀ keyid pubkey, validSize pubkey = true → pubkey.length = 33 → hash160 pubkey = keyid →
      ((encodeConfidentialAddress hash160 chain (.WitnessV0KeyHash keyid) pubkey >>=
          decodeConfidentialAddress hash160 chain) = .ok (⟨keyid, pubkey⟩, pubkey) ↔
        chain.confidentialBech32HRP ≠ [])) ∧
    ∀ str dest pubkey, decodeConfidentialAddress hash160 chain str = .ok (dest, pubkey) →
      dest.m_blinding = pubkey ∧
      (encodeConfidentialAddress hash160 chain (.WitnessV0KeyHash dest.m_spend) pubkey = .ok str ↔
        0 ∉ str) := by
  constructor
  · rintro keyid pubkey hvalid hlength rfl
    exact decode_encodeConfidentialAddress hsize hvalid hlength
  · intro str dest pubkey h
    obtain ⟨_, _, -, -, hpayload⟩ := decodeConfidentialAddress_eq_ok.mp h
    obtain ⟨-, -, hblinding, -⟩ := decodePayload_eq_ok.mp hpayload
    exact ⟨hblinding, encode_decodeConfidentialAddress h⟩

end Spelling

/-! ### The key of the base point -/

def baseKey : Bytes :=
  [0x02, 0x79, 0xbe, 0x66, 0x7e, 0xf9, 0xdc, 0xbb, 0xac, 0x55, 0xa0, 0x62, 0x95, 0xce, 0x87, 0x0b,
    0x07, 0x02, 0x9b, 0xfc, 0xdb, 0x2d, 0xce, 0x28, 0xd9, 0x59, 0xf2, 0x81, 0x5b, 0x16, 0xf8,
    0x17, 0x98]

def baseHash (_ : Bytes) : Bytes :=
  [0x75, 0x1e, 0x76, 0xe8, 0x19, 0x91, 0x96, 0xd4, 0x54, 0x94, 0x1c, 0x45, 0xd1, 0xb3, 0xa3, 0x23,
    0xf1, 0x43, 0x3b, 0xd6]

/-- The address of `baseKey` up to two of its characters; `addressEnd` is what follows them. -/
def addressStart : Bytes :=
  asciiBytes "rcpux1qp63uahgrxged4z5jswyt5dn5v3lzsem6cp8n0nx0muaewav2ksx99wwsu9swq5mlndjmn3gm9vl"

def addressEnd : Bytes := asciiBytes "2mzmup0xqz5lxfu"

theorem baseKey_spelling :
    (encodeConfidentialAddress baseHash .RCPUMAIN (.WitnessV0KeyHash (baseHash baseKey)) baseKey >>=
        decodeConfidentialAddress baseHash .RCPUMAIN) =
          .ok (⟨baseHash baseKey, baseKey⟩, baseKey) ∧
      encodeConfidentialAddress baseHash .RCPUMAIN (.WitnessV0KeyHash (baseHash baseKey)) baseKey =
        .ok (addressStart ++ asciiBytes "9q" ++ addressEnd) := by
  have hspelling := @confidentialAddress_spelling_iff baseHash .RCPUMAIN fun _ => rfl
  have hdecode : decodeConfidentialAddress baseHash .RCPUMAIN
      (addressStart ++ asciiBytes "9q" ++ addressEnd) =
        .ok (⟨baseHash baseKey, baseKey⟩, baseKey) := by decide +kernel
  refine ⟨(hspelling.1 _ baseKey (by decide) rfl rfl).mpr (by decide +kernel), ?_⟩
  exact (hspelling.2 _ _ _ hdecode).2.mpr (by decide +kernel)

/-- A second spelling: symbols 5 and 0 become 4 and a NUL byte, which counts as 32 and carries into
the symbol before it. -/
theorem baseKey_second_spelling :
    decodeConfidentialAddress baseHash .RCPUMAIN
          (addressStart ++ asciiBytes "y" ++ [0] ++ addressEnd) =
        .ok (⟨baseHash baseKey, baseKey⟩, baseKey) ∧
      encodeConfidentialAddress baseHash .RCPUMAIN (.WitnessV0KeyHash (baseHash baseKey)) baseKey ≠
        .ok (addressStart ++ asciiBytes "y" ++ [0] ++ addressEnd) := by
  constructor <;> decide +kernel

end Rcpu.ConfidentialAddress
