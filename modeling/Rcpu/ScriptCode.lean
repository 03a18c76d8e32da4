import Rcpu.Interpreter

/-!
# Script codes are self-delimiting

The legacy signature message writes a script code behind its declared size, but a script that ends
in a truncated push only up to that push.  The declared size still tells where that happens, so no
script code is a prefix of another one.
-/

namespace Rcpu.ScriptCode

open PrefixCode ByteStream Serialize Transaction Script Interpreter

theorem getScriptOp_cases (it : CScript) :
    (it = [] ∧ getScriptOp it = (none, [])) ∨
    (∃ opcode pc, it = opcode :: pc ∧ OP_PUSHDATA4 < opcode ∧ getScriptOp it = (some opcode, pc)) ∨
    (∃ opcode pc, it = opcode :: pc ∧ opcode ≤ OP_PUSHDATA4 ∧ pc.length < sizeWidth opcode ∧
      getScriptOp it = (none, pc)) ∨
    (∃ opcode size rest, it = opcode :: (size ++ rest) ∧ opcode ≤ OP_PUSHDATA4 ∧
      size.length = sizeWidth opcode ∧ rest.length < operandSize opcode size ∧
      getScriptOp it = (none, rest)) ∨
    (∃ opcode size data rest, it = opcode :: (size ++ (data ++ rest)) ∧ opcode ≤ OP_PUSHDATA4 ∧
      size.length = sizeWidth opcode ∧ data.length = operandSize opcode size ∧
      getScriptOp it = (some opcode, rest)) := by
  cases it with
  | nil => exact .inl ⟨rfl, rfl⟩
  | cons opcode pc =>
    right
    by_cases hpush : opcode ≤ OP_PUSHDATA4
    · right
      by_cases hwidth : pc.length < sizeWidth opcode
      · exact .inl ⟨opcode, pc, rfl, hpush, hwidth, by simp [getScriptOp, hpush, hwidth]⟩
      · right
        have hsize : (pc.take (sizeWidth opcode)).length = sizeWidth opcode := by
          rw [List.length_take]
          omega
        by_cases hoperand : pc.length - sizeWidth opcode <
            operandSize opcode (pc.take (sizeWidth opcode))
        · left
          refine ⟨opcode, pc.take (sizeWidth opcode), pc.drop (sizeWidth opcode), ?_, hpush, hsize,
            ?_, ?_⟩
          · rw [List.take_append_drop]
          · rwa [List.length_drop]
          · simp [getScriptOp, hpush, hwidth, hoperand]
        · right
          refine ⟨opcode, pc.take (sizeWidth opcode),
            (pc.drop (sizeWidth opcode)).take (operandSize opcode (pc.take (sizeWidth opcode))),
            pc.drop (sizeWidth opcode + operandSize opcode (pc.take (sizeWidth opcode))), ?_, hpush,
            hsize, ?_, ?_⟩
          · rw [← List.drop_drop, List.take_append_drop, List.take_append_drop]
          · rw [List.length_take, List.length_drop]
            omega
          · simp [getScriptOp, hpush, hwidth, hoperand]
    · exact .inl ⟨opcode, pc, rfl, UInt8.not_le.mp hpush, by simp [getScriptOp, hpush]⟩

/-- The iterator moves over some bytes; over just one if these are a code separator. -/
theorem getScriptOp_consumed (it : CScript) :
    ∃ consumed, it = consumed ++ (getScriptOp it).2 ∧ ∀ opcode, (getScriptOp it).1 = some opcode →
      consumed ≠ [] ∧ (opcode = OP_CODESEPARATOR → consumed = [OP_CODESEPARATOR]) := by
  rcases getScriptOp_cases it with ⟨rfl, hop⟩ | ⟨opcode, pc, rfl, -, hop⟩ |
    ⟨opcode, pc, rfl, -, -, hop⟩ | ⟨opcode, size, rest, rfl, -, -, -, hop⟩ |
    ⟨opcode, size, data, rest, rfl, hle, -, -, hop⟩
  · exact ⟨[], by simp [hop], by simp [hop]⟩
  · exact ⟨[opcode], by simp [hop], by simp [hop]⟩
  · exact ⟨[opcode], by simp [hop], by simp [hop]⟩
  · exact ⟨opcode :: size, by simp [hop], by simp [hop]⟩
  · refine ⟨opcode :: (size ++ data), by simp [hop], ?_⟩
    rintro _ hsome
    obtain rfl : opcode = _ := by simpa [hop] using hsome
    -- a code separator is no push
    refine ⟨by simp, fun hsep => absurd hle ?_⟩
    rw [hsep]
    decide

def stripped : Nat → CScript → Bytes
  | 0, _ => []
  | fuel + 1, it =>
    match getScriptOp it with
    | (none, it') => it.take (it.length - it'.length)
    | (some opcode, it') =>
      (if opcode = OP_CODESEPARATOR then [] else it.take (it.length - it'.length)) ++
        stripped fuel it'

/-- What is pending between the two iterators is written with what follows it. -/
theorem writeSegments_eq {fuel : Nat} {pending it : CScript} (hfuel : it.length < fuel) :
    writeSegments fuel (pending ++ it) it = pending ++ stripped fuel it := by
  induction fuel generalizing pending it with
  | zero => simp at hfuel
  | succ fuel ih =>
    obtain ⟨consumed, hit, hsome⟩ := getScriptOp_consumed it
    unfold writeSegments stripped
    rcases hop : getScriptOp it with ⟨_ | opcode, it'⟩
    · rw [hop] at hit
      subst hit
      simp [← List.append_assoc]
    · rw [hop] at hit hsome
      obtain ⟨hne, hsep⟩ := hsome opcode rfl
      have hpos := List.length_pos_of_ne_nil hne
      subst hit
      have hlt : it'.length < fuel := by
        rw [List.length_append] at hfuel
        dsimp only at hfuel
        omega
      dsimp only
      split_ifs with his
      · have hnil : writeSegments fuel ([] ++ it') it' = [] ++ stripped fuel it' := ih hlt
        rw [List.nil_append, List.nil_append] at hnil
        have hlen : (pending ++ (consumed ++ it')).length - it'.length - 1 = pending.length := by
          rw [hsep his]
          simp only [List.length_append, List.length_singleton]
          omega
        rw [hlen, hnil, List.take_left, List.nil_append]
      · have hnext : writeSegments fuel ((pending ++ consumed) ++ it') it' =
            (pending ++ consumed) ++ stripped fuel it' := ih hlt
        rw [List.append_assoc] at hnext
        rw [hnext]
        simp

/-- Reading a script code of a declared size instruction by instruction. -/
def readScriptCode : Nat → Nat → Reader Bytes
  | 0, _ => pure []
  | fuel + 1, left =>
    if left = 0 then pure []
    else do
      let opcode ← Reader.readByte
      if OP_PUSHDATA4 < opcode then
        let rest ← readScriptCode fuel (left - 1)
        return opcode :: rest
      else if left - 1 < sizeWidth opcode then return [opcode]
      else
        let size ← Reader.readBytes (sizeWidth opcode)
        if left - 1 - sizeWidth opcode < operandSize opcode size then return opcode :: size
        else
          let data ← Reader.readBytes (operandSize opcode size)
          let rest ← readScriptCode fuel (left - 1 - sizeWidth opcode - operandSize opcode size)
          return opcode :: (size ++ (data ++ rest))

section Steps

variable {fuel left : Nat} {opcode : UInt8} {size data rest : Bytes}

theorem reads_plain (hop : OP_PUSHDATA4 < opcode)
    (hrest : Reads (readScriptCode fuel left) rest rest) :
    Reads (readScriptCode (fuel + 1) (left + 1)) (opcode :: rest) (opcode :: rest) := by
  rw [readScriptCode, if_neg (by omega)]
  refine (Reads.readByte opcode).bind (t := rest) ?_
  rw [if_pos hop, Nat.add_sub_cancel]
  exact hrest.map (opcode :: ·)

theorem reads_withoutSize (hop : opcode ≤ OP_PUSHDATA4) (hleft : left < sizeWidth opcode) :
    Reads (readScriptCode (fuel + 1) (left + 1)) [opcode] [opcode] := by
  rw [readScriptCode, if_neg (by omega)]
  refine (Reads.readByte opcode).bind (t := []) ?_
  rw [if_neg (UInt8.not_lt.mpr hop), Nat.add_sub_cancel, if_pos hleft]
  exact Reads.pure _

theorem reads_withoutData (hop : opcode ≤ OP_PUSHDATA4) (hsize : size.length = sizeWidth opcode)
    (hleft : left < operandSize opcode size) :
    Reads (readScriptCode (fuel + 1) (left + size.length + 1)) (opcode :: size)
      (opcode :: size) := by
  rw [readScriptCode, if_neg (by omega)]
  refine (Reads.readByte opcode).bind (t := size) ?_
  rw [if_neg (UInt8.not_lt.mpr hop), if_neg (by omega), ← List.append_nil size]
  refine (Reads.readBytes size hsize).bind ?_
  rw [List.append_nil, if_pos (by omega)]
  exact Reads.pure _

theorem reads_push (hop : opcode ≤ OP_PUSHDATA4) (hsize : size.length = sizeWidth opcode)
    (hdata : data.length = operandSize opcode size)
    (hrest : Reads (readScriptCode fuel left) rest rest) :
    Reads (readScriptCode (fuel + 1) (left + data.length + size.length + 1))
      (opcode :: (size ++ (data ++ rest))) (opcode :: (size ++ (data ++ rest))) := by
  rw [readScriptCode, if_neg (by omega)]
  refine (Reads.readByte opcode).bind (t := size ++ (data ++ rest)) ?_
  rw [if_neg (UInt8.not_lt.mpr hop), if_neg (by omega)]
  refine (Reads.readBytes size hsize).bind ?_
  rw [if_neg (by omega)]
  refine (Reads.readBytes data hdata).bind ?_
  have hleft : left + data.length + size.length + 1 - 1 - sizeWidth opcode -
      operandSize opcode size = left := by omega
  rw [hleft]
  exact hrest.map fun rest => opcode :: (size ++ (data ++ rest))

end Steps

theorem nCodeSeparators_le (fuel : Nat) (it : CScript) : nCodeSeparators fuel it ≤ it.length := by
  induction fuel generalizing it with
  | zero => simp [nCodeSeparators]
  | succ fuel ih =>
    obtain ⟨consumed, hit, hsome⟩ := getScriptOp_consumed it
    unfold nCodeSeparators
    rcases hop : getScriptOp it with ⟨_ | opcode, it'⟩
    · simp
    · rw [hop] at hit hsome
      have hpos := List.length_pos_of_ne_nil (hsome opcode rfl).1
      have hrest := ih it'
      have hlen : it.length = consumed.length + it'.length := by rw [hit, List.length_append]
      dsimp only
      split_ifs <;> omega

/-- The stripped script is read back at its declared size: the script ends, or is cut off, where
its own parser says so. -/
theorem reads_stripped {fuel : Nat} {it : CScript} (hfuel : it.length < fuel) {fuel' : Nat}
    (hfuel' : it.length - nCodeSeparators fuel it < fuel') :
    Reads (readScriptCode fuel' (it.length - nCodeSeparators fuel it)) (stripped fuel it)
      (stripped fuel it) := by
  induction fuel generalizing it fuel' with
  | zero => simp at hfuel
  | succ fuel ih =>
    obtain ⟨fuel', rfl⟩ : ∃ n, fuel' = n + 1 := ⟨fuel' - 1, by omega⟩
    rw [nCodeSeparators] at hfuel'
    rw [nCodeSeparators, stripped]
    rcases getScriptOp_cases it with ⟨rfl, hop⟩ | ⟨opcode, pc, rfl, hlt, hop⟩ |
      ⟨opcode, pc, rfl, hle, hwidth, hop⟩ | ⟨opcode, size, rest, rfl, hle, hsize, hdata, hop⟩ |
      ⟨opcode, size, data, rest, rfl, hle, hsize, hdata, hop⟩
    · simp only [hop, List.length_nil, Nat.sub_self, readScriptCode, if_true, List.take_nil]
      exact Reads.pure []
    · have hcount := nCodeSeparators_le fuel pc
      have hpc : pc.length < fuel := by simpa using hfuel
      simp only [hop, List.length_cons] at hfuel' ⊢
      split_ifs at hfuel' ⊢ with hsep
      · -- a separator is neither counted nor written
        have hleft : pc.length + 1 - (1 + nCodeSeparators fuel pc) =
            pc.length - nCodeSeparators fuel pc := by omega
        rw [hleft] at hfuel' ⊢
        exact ih hpc hfuel'
      · have hleft : pc.length + 1 - (0 + nCodeSeparators fuel pc) =
            pc.length - nCodeSeparators fuel pc + 1 := by omega
        have htake : (opcode :: pc).take (pc.length + 1 - pc.length) = [opcode] := by simp
        rw [hleft, htake]
        exact reads_plain hlt (ih hpc (by omega))
    · have htake : (opcode :: pc).take (pc.length + 1 - pc.length) = [opcode] := by simp
      simp only [hop, List.length_cons, htake, Nat.sub_zero]
      exact reads_withoutSize hle hwidth
    · have htake : (opcode :: (size ++ rest)).take (size.length + rest.length + 1 - rest.length) =
          opcode :: size := by
        have hlen : size.length + rest.length + 1 - rest.length = (opcode :: size).length := by
          rw [List.length_cons]
          omega
        rw [hlen, ← List.cons_append, List.take_left]
      have hleft : size.length + rest.length + 1 = rest.length + size.length + 1 := by omega
      simp only [hop, List.length_cons, List.length_append, htake, Nat.sub_zero]
      rw [hleft]
      exact reads_withoutData hle hsize hdata
    · have hcount := nCodeSeparators_le fuel rest
      have hnot : opcode ≠ OP_CODESEPARATOR := by
        rintro rfl
        exact absurd hle (by decide)
      have hrest : rest.length < fuel := by
        simp only [List.length_cons, List.length_append] at hfuel
        omega
      have htake : (opcode :: (size ++ (data ++ rest))).take
          (size.length + (data.length + rest.length) + 1 - rest.length) =
          opcode :: (size ++ data) := by
        have hlen : size.length + (data.length + rest.length) + 1 - rest.length =
            (opcode :: (size ++ data)).length := by
          rw [List.length_cons, List.length_append]
          omega
        have heq : opcode :: (size ++ (data ++ rest)) = (opcode :: (size ++ data)) ++ rest := by simp
        rw [hlen, heq, List.take_left]
      have hleft : size.length + (data.length + rest.length) + 1 -
          (0 + nCodeSeparators fuel rest) =
          rest.length - nCodeSeparators fuel rest + data.length + size.length + 1 := by omega
      simp only [hop, List.length_cons, List.length_append, hnot, if_false] at hfuel' ⊢
      rw [hleft, htake, List.cons_append, List.append_assoc]
      exact reads_push hle hsize hdata (ih hrest (by omega))

/-- The words that `SerializeScriptCode` writes. -/
def IsScriptCode (word : Bytes) : Prop :=
  ∃ scriptCode : CScript, scriptCode.length < 2 ^ 64 ∧ word = serializeScriptCode scriptCode

theorem isScriptCode_nil : IsScriptCode (serBytes []) := ⟨[], by decide, rfl⟩

def readScriptCodeWord : Reader Bytes := do
  let nSize ← readCompactSizeValue
  let body ← readScriptCode (nSize + 1) nSize
  return writeCompactSize nSize ++ body

theorem prefixFree_scriptCode : PrefixFreeOn IsScriptCode (fun word => word) := by
  have hread : ∀ word, IsScriptCode word → Reads readScriptCodeWord word word := by
    rintro _ ⟨scriptCode, hlt, rfl⟩
    have hfuel : scriptCode.length < scriptCode.length + 1 := Nat.lt_succ_self _
    have hbody : writeSegments (scriptCode.length + 1) ([] ++ scriptCode) scriptCode =
        [] ++ stripped (scriptCode.length + 1) scriptCode := writeSegments_eq hfuel
    rw [List.nil_append, List.nil_append] at hbody
    unfold serializeScriptCode
    dsimp only
    rw [hbody]
    refine (reads_compactSizeValue (by omega)).bind ?_
    exact (reads_stripped hfuel (Nat.lt_succ_self _)).map (writeCompactSize _ ++ ·)
  exact Reads.prefixFree hread

end Rcpu.ScriptCode
