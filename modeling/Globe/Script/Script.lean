import Globe.Primitives.Transaction

/-!
# Scripts

`script/script.h` and `script.cpp`: the opcodes the coinstake script functions
test, `GetScriptOp`, which reads one instruction, and the fixed-layout test
`MatchPayToPublicKeyHash`.

A script is its byte vector and an iterator is a position in it.  An opcode is
any byte, since the source casts the byte it reads to `opcodetype`; the named
opcodes are constants, not the constructors of a type.
-/

namespace Globe

open ByteCodec

abbrev opcodetype := UInt8

def OP_PUSHDATA1 : opcodetype := 0x4c
def OP_PUSHDATA2 : opcodetype := 0x4d
def OP_PUSHDATA4 : opcodetype := 0x4e
def OP_1 : opcodetype := 0x51
def OP_2 : opcodetype := 0x52
def OP_IF : opcodetype := 0x63
def OP_NOTIF : opcodetype := 0x64
def OP_ELSE : opcodetype := 0x67
def OP_ENDIF : opcodetype := 0x68
def OP_DUP : opcodetype := 0x76
def OP_EQUALVERIFY : opcodetype := 0x88
def OP_HASH160 : opcodetype := 0xa9
def OP_CHECKSIG : opcodetype := 0xac
def OP_NOP9 : opcodetype := 0xb8
def OP_ISCOINSTAKE : opcodetype := OP_NOP9
def OP_INVALIDOPCODE : opcodetype := 0xff

/-- The size of the immediate operand of a push `opcode` whose size field (if
any) starts at `pc`, and the position where the operand starts; `none` when
the script ends inside the size field. -/
def pushSize (script : CScript) (opcode : opcodetype) (pc : Nat) : Option (Nat × Nat) :=
  if opcode < OP_PUSHDATA1 then some (opcode.toNat, pc)
  else if opcode = OP_PUSHDATA1 then
    if script.length - pc < 1 then none else some ((script.getD pc 0).toNat, pc + 1)
  else if opcode = OP_PUSHDATA2 then
    if script.length - pc < 2 then none else some (leValue ((script.drop pc).take 2), pc + 2)
  else if opcode = OP_PUSHDATA4 then
    if script.length - pc < 4 then none else some (leValue ((script.drop pc).take 4), pc + 4)
  else some (0, pc)

/-- `GetScriptOp(pc, end, opcodeRet, pvchRet)`: the position after the
instruction at `pc`, its opcode and the bytes it pushes, or `none` when the
script ends before the instruction does. -/
def GetScriptOp (script : CScript) (pc : Nat) : Option (Nat × opcodetype × Bytes) :=
  if script.length ≤ pc then none
  else if script.getD pc 0 ≤ OP_PUSHDATA4 then
    match pushSize script (script.getD pc 0) (pc + 1) with
    | none => none
    | some (nSize, start) =>
      if script.length - start < nSize then none
      else some (start + nSize, script.getD pc 0, (script.drop start).take nSize)
  else some (pc + 1, script.getD pc 0, [])

/-- `MatchPayToPublicKeyHash(ofs)`: the 25 bytes at `ofs` are
`OP_DUP OP_HASH160 <20 bytes> OP_EQUALVERIFY OP_CHECKSIG`.  Callers pass a
position inside the script, where the unsigned difference cannot wrap. -/
def MatchPayToPublicKeyHash (script : CScript) (ofs : Nat) : Bool :=
  decide (25 ≤ script.length - ofs) && script.getD ofs 0 == OP_DUP &&
    script.getD (ofs + 1) 0 == OP_HASH160 && script.getD (ofs + 2) 0 == 0x14 &&
    script.getD (ofs + 23) 0 == OP_EQUALVERIFY && script.getD (ofs + 24) 0 == OP_CHECKSIG

/-! ## Reading instructions -/

theorem pushSize_bounds {script : CScript} {opcode : opcodetype} {pc nSize start : Nat}
    (hpc : pc ≤ script.length) (h : pushSize script opcode pc = some (nSize, start)) :
    pc ≤ start ∧ start ≤ script.length := by
  unfold pushSize at h
  repeat' split at h
  all_goals simp only [Option.some.injEq, Prod.mk.injEq, reduceCtorEq] at h
  all_goals omega

/-- An instruction ends after its position and inside the script. -/
theorem GetScriptOp_lt {script : CScript} {pc pc' : Nat} {opcode : opcodetype} {v : Bytes}
    (h : GetScriptOp script pc = some (pc', opcode, v)) : pc < pc' ∧ pc' ≤ script.length := by
  unfold GetScriptOp at h
  split at h
  · contradiction
  · next hpc =>
    split at h
    · -- a push ends after its operand, which the size check keeps inside
      split at h
      · contradiction
      · next nSize start hsize =>
        have hstart := pushSize_bounds (by omega) hsize
        split at h
        · contradiction
        · simp only [Option.some.injEq, Prod.mk.injEq] at h
          omega
    · simp only [Option.some.injEq, Prod.mk.injEq] at h
      omega

/-- An instruction of one byte that pushes nothing. -/
theorem GetScriptOp_nonPush {script : CScript} {pc : Nat} (hpc : pc < script.length)
    (hop : OP_PUSHDATA4 < script.getD pc 0) :
    GetScriptOp script pc = some (pc + 1, script.getD pc 0, []) := by
  unfold GetScriptOp
  rw [if_neg (Nat.not_le.mpr hpc), if_neg (UInt8.not_le.mpr hop)]

end Globe
