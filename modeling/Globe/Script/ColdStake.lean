import Globe.Script.Script

/-!
# Coinstake scripts

`script/interpreter.cpp`: the functions that take a cold-staking script
`... OP_ISCOINSTAKE OP_IF <coinstake path> OP_ELSE <spend path> OP_ENDIF ...`
apart.  Each is a loop that reads instructions with `GetOp` until it fails or
the script ends, keeping iterators into the script, and cuts the script at
those iterators.

`SplitConditionalCoinstakeScript` keeps its four flags and counters in a
`SplitState`.  When the instruction after an `OP_ISCOINSTAKE` is not `OP_IF`,
the source has already stored that instruction's opcode (or
`OP_INVALIDOPCODE`) in `opcode`, and the tests that follow read it there.
-/

namespace Globe

open ByteCodec

/-- `CScript(first, last)`: the bytes between two iterators. -/
def segment (script : CScript) (first last : Nat) : CScript := (script.drop first).take (last - first)

/-- `HasIsCoinstakeOp`: the first instruction is `OP_ISCOINSTAKE`. -/
def HasIsCoinstakeOp (script : CScript) : Bool :=
  match GetScriptOp script 0 with
  | some (_, opcode, _) => opcode == OP_ISCOINSTAKE
  | none => false

/-- The loop of `IsSpendScriptP2PKH` from `pc`.  Its `fFoundOp` is never set,
so the first `OP_ELSE` decides. -/
def isSpendScriptP2PKHLoop (script : CScript) (pc : Nat) : Bool :=
  if pc < script.length then
    match h : GetScriptOp script pc with
    | none => false
    | some (pc', opcode, _) =>
      have := (GetScriptOp_lt h).1
      if opcode = OP_ELSE then MatchPayToPublicKeyHash script pc'
      else isSpendScriptP2PKHLoop script pc'
  else false
termination_by script.length - pc
decreasing_by omega

/-- `IsSpendScriptP2PKH`: the spend path after the first `OP_ELSE` starts
with a pay-to-public-key-hash script. -/
def IsSpendScriptP2PKH (script : CScript) : Bool := isSpendScriptP2PKHLoop script 0

/-- The loop of `GetCoinstakeScriptPath` from `pc`.  After `OP_ISCOINSTAKE`
it steps one byte over the `OP_IF` it expects there without reading it. -/
def getCoinstakeScriptPathLoop (scriptIn : CScript) (pcStart : Nat) (fFoundOp : Bool)
    (pc : Nat) : Option CScript :=
  if pc < scriptIn.length then
    match h : GetScriptOp scriptIn pc with
    | none => none
    | some (pc', opcode, _) =>
      if !fFoundOp && opcode == OP_ISCOINSTAKE then
        getCoinstakeScriptPathLoop scriptIn (pc' + 1) true (pc' + 1)
      else if fFoundOp && opcode == OP_ELSE then some (segment scriptIn pcStart (pc' - 1))
      else getCoinstakeScriptPathLoop scriptIn pcStart fFoundOp pc'
  else none
termination_by scriptIn.length - pc
decreasing_by
  all_goals have := (GetScriptOp_lt h).1
  all_goals omega

/-- `GetCoinstakeScriptPath`: the script between the `OP_IF` after the first
`OP_ISCOINSTAKE` and the next `OP_ELSE`, or `none` (false). -/
def GetCoinstakeScriptPath (scriptIn : CScript) : Option CScript :=
  getCoinstakeScriptPathLoop scriptIn 0 false 0

/-- The loop of `GetNonCoinstakeScriptPath` from `pc`. -/
def getNonCoinstakeScriptPathLoop (scriptIn : CScript) (pcStart : Nat) (fFoundOp : Bool)
    (pc : Nat) : Option CScript :=
  if pc < scriptIn.length then
    match h : GetScriptOp scriptIn pc with
    | none => none
    | some (pc', opcode, _) =>
      if !fFoundOp && opcode == OP_ELSE then getNonCoinstakeScriptPathLoop scriptIn pc' true pc'
      else if fFoundOp && opcode == OP_ENDIF then some (segment scriptIn pcStart (pc' - 1))
      else getNonCoinstakeScriptPathLoop scriptIn pcStart fFoundOp pc'
  else none
termination_by scriptIn.length - pc
decreasing_by
  all_goals have := (GetScriptOp_lt h).1
  all_goals omega

/-- `GetNonCoinstakeScriptPath`: the script between the first `OP_ELSE` and
the next `OP_ENDIF`, or `none` (false). -/
def GetNonCoinstakeScriptPath (scriptIn : CScript) : Option CScript :=
  getNonCoinstakeScriptPathLoop scriptIn 0 false 0

def GetColdStakeScriptPath (for_coinstake : Bool) (script_in : CScript) : Option CScript :=
  if for_coinstake then GetCoinstakeScriptPath script_in else GetNonCoinstakeScriptPath script_in

/-! ## The splitter -/

/-- The variables of `SplitConditionalCoinstakeScript` besides `pc`. -/
structure SplitState where
  pcStart : Nat
  in_ifcs : Bool
  fFoundElse : Bool
  found_cs_block : Bool
  inner_ifcount : Int
  scriptOutA : CScript
  scriptOutB : CScript
  deriving DecidableEq

def SplitState.init : SplitState := ⟨0, false, false, false, 0, [], []⟩

/-- An `OP_ISCOINSTAKE OP_IF` that ends at `pc` opens the coinstake block: the
script before it goes to both outputs. -/
def openCoinstakeBlock (scriptIn : CScript) (st : SplitState) (pc : Nat) : SplitState :=
  let seg := segment scriptIn st.pcStart (pc - 2)
  { st with scriptOutA := st.scriptOutA ++ seg, scriptOutB := st.scriptOutB ++ seg, pcStart := pc,
            in_ifcs := true, inner_ifcount := 0 }

/-- The three tests of the loop body after the coinstake test, for `opcode`
with the iterator at `pc`. -/
def splitScan (scriptIn : CScript) (st : SplitState) (pc : Nat) (opcode : opcodetype) :
    SplitState :=
  let st := if st.in_ifcs && opcode == OP_IF then { st with inner_ifcount := st.inner_ifcount + 1 }
    else st
  let st :=
    if opcode == OP_ENDIF then
      if st.fFoundElse then
        { st with scriptOutB := st.scriptOutB ++ segment scriptIn st.pcStart (pc - 1),
                  found_cs_block := true, pcStart := pc }
      else { st with inner_ifcount := st.inner_ifcount - 1 }
    else st
  if st.in_ifcs && st.inner_ifcount == 0 && opcode == OP_ELSE then
    { st with scriptOutA := st.scriptOutA ++ segment scriptIn st.pcStart (pc - 1), pcStart := pc,
              fFoundElse := true }
  else st

/-- The loop of `SplitConditionalCoinstakeScript` from `pc`. -/
def splitLoop (scriptIn : CScript) (st : SplitState) (pc : Nat) : SplitState :=
  if pc < scriptIn.length then
    match h : GetScriptOp scriptIn pc with
    | none => st
    | some (pc₁, opcode, _) =>
      have := (GetScriptOp_lt h).1
      if !st.in_ifcs && opcode == OP_ISCOINSTAKE then
        -- the look-ahead writes the next opcode into opcode, or OP_INVALIDOPCODE
        match h₂ : GetScriptOp scriptIn pc₁ with
        | some (pc₂, opcode₂, _) =>
          have := (GetScriptOp_lt h₂).1
          if opcode₂ == OP_IF then splitLoop scriptIn (openCoinstakeBlock scriptIn st pc₂) pc₂
          else splitLoop scriptIn (splitScan scriptIn st pc₁ opcode₂) pc₁
        | none => splitLoop scriptIn (splitScan scriptIn st pc₁ OP_INVALIDOPCODE) pc₁
      else splitLoop scriptIn (splitScan scriptIn st pc₁ opcode) pc₁
  else st
termination_by scriptIn.length - pc
decreasing_by all_goals omega

/-- `SplitConditionalCoinstakeScript`: whether a coinstake block was closed,
and the two scripts written to `scriptOutA` and `scriptOutB`, which the source
leaves partly written when it returns false. -/
def SplitConditionalCoinstakeScript (scriptIn : CScript) : Bool × CScript × CScript :=
  let st := splitLoop scriptIn SplitState.init 0
  if st.found_cs_block then
    let seg := segment scriptIn st.pcStart scriptIn.length
    (true, st.scriptOutA ++ seg, st.scriptOutB ++ seg)
  else (false, st.scriptOutA, st.scriptOutB)

/-! ## One step of the splitter -/

section SplitSteps

variable {scriptIn : CScript} {st : SplitState} {pc pc₁ : Nat} {opcode : opcodetype} {v : Bytes}

theorem splitLoop_of_le (h : scriptIn.length ≤ pc) : splitLoop scriptIn st pc = st := by
  rw [splitLoop, if_neg (Nat.not_lt.mpr h)]

/-- An instruction other than a coinstake test outside the block goes through
the three tests. -/
theorem splitLoop_scan (h : GetScriptOp scriptIn pc = some (pc₁, opcode, v))
    (hcs : (!st.in_ifcs && opcode == OP_ISCOINSTAKE) = false) :
    splitLoop scriptIn st pc = splitLoop scriptIn (splitScan scriptIn st pc₁ opcode) pc₁ := by
  have hpc := GetScriptOp_lt h
  rw [splitLoop, if_pos (by omega)]
  split
  · simp_all
  · next heq =>
    rw [h] at heq
    obtain ⟨rfl, rfl, rfl⟩ := by simpa using heq
    simp [hcs]

/-- `OP_ISCOINSTAKE OP_IF` outside the block opens it. -/
theorem splitLoop_open {pc₂ : Nat} {v₂ : Bytes}
    (h : GetScriptOp scriptIn pc = some (pc₁, OP_ISCOINSTAKE, v)) (hin : st.in_ifcs = false)
    (h₂ : GetScriptOp scriptIn pc₁ = some (pc₂, OP_IF, v₂)) :
    splitLoop scriptIn st pc = splitLoop scriptIn (openCoinstakeBlock scriptIn st pc₂) pc₂ := by
  have hpc := GetScriptOp_lt h
  rw [splitLoop, if_pos (by omega)]
  split
  · simp_all
  · next heq =>
    rw [h] at heq
    obtain ⟨rfl, rfl, rfl⟩ := by simpa using heq
    simp only [hin, Bool.not_false, beq_self_eq_true, Bool.and_self, if_true]
    split
    · next heq₂ =>
      rw [h₂] at heq₂
      obtain ⟨rfl, rfl, rfl⟩ := by simpa using heq₂
      simp
    · simp_all

end SplitSteps

/-- A coinstake block whose spend path has a conditional of its own:
`OP_ISCOINSTAKE OP_IF OP_1 OP_ELSE OP_1 OP_IF OP_2 OP_ENDIF OP_ENDIF`. -/
def nestedSpendScript : CScript :=
  [OP_ISCOINSTAKE, OP_IF, OP_1, OP_ELSE, OP_1, OP_IF, OP_2, OP_ENDIF, OP_ENDIF]

/-- The `OP_ENDIF` of the inner conditional closes the coinstake block, and
the spend path loses it. -/
theorem split_drops_nested_endif :
    SplitConditionalCoinstakeScript nestedSpendScript = (true, [OP_1], [OP_1, OP_IF, OP_2]) := by
  have hbytes : ∀ pc, pc < nestedSpendScript.length → OP_PUSHDATA4 < nestedSpendScript.getD pc 0 := by
    decide
  have hop : ∀ pc, pc < nestedSpendScript.length →
      GetScriptOp nestedSpendScript pc = some (pc + 1, nestedSpendScript.getD pc 0, []) :=
    fun pc hpc => GetScriptOp_nonPush hpc (hbytes pc hpc)
  rw [SplitConditionalCoinstakeScript, splitLoop_open (hop 0 (by decide)) rfl (hop 1 (by decide)),
    splitLoop_scan (hop 2 (by decide)) (by decide), splitLoop_scan (hop 3 (by decide)) (by decide),
    splitLoop_scan (hop 4 (by decide)) (by decide), splitLoop_scan (hop 5 (by decide)) (by decide),
    splitLoop_scan (hop 6 (by decide)) (by decide), splitLoop_scan (hop 7 (by decide)) (by decide),
    splitLoop_scan (hop 8 (by decide)) (by decide), splitLoop_of_le (by decide)]
  decide

end Globe
