import SipxExternals.NetSnmpAsnRbuild
import SipxExternals.NetSnmpPduParse

namespace NetSnmp.PduRbuild
open Foundations AsnTypes AsnRbuild PduParse
open List hiding count min

-- A value of another shape than its type calls for does not occur.
def rbuildValue (r : Bool) (v : Variable) : Rb Unit :=
  match valueKind v.type,v.val with
  | some .integer,.integer value => asnReallocRbuildInt r v.type value v.valLen
  | some .unsigned,.unsigned value => asnReallocRbuildUnsignedInt r v.type value v.valLen
  | some .unsigned64,.counter64 high low => asnReallocRbuildUnsignedInt64 r v.type (high,low) v.valLen
  | some .string,.string octets => asnReallocRbuildString r v.type octets
  | some .objid,.objid subids => asnReallocRbuildObjid r v.type subids
  | some .null,_ => asnReallocRbuildNull r v.type
  | some .bitstring,.bitstring octets => asnReallocRbuildBitstring r v.type octets
  | some .float,.float bits => asnReallocRbuildFloat r bits v.valLen
  | some .double,.double bits => asnReallocRbuildDouble r bits v.valLen
  | some .signed64,.counter64 high low => asnReallocRbuildSignedInt64 r (high,low) v.valLen
  | _,_ => Backfill.fail

def snmpReallocRbuildVarOp (r : Bool) (v : Variable) : Rb Unit := do
  let size ← Backfill.measured do
    rbuildValue r v
    asnReallocRbuildObjid r asnObjectId v.name
  asnReallocRbuildSequence r asnSequenceConstructor size

def vpcacheSize : Nat := 50

-- vpcache[], i and wrapped; positions of variables stand for the pointers to them.
structure Ring where
  cache : Nat → Nat
  i : Int
  wrapped : Bool

-- if (i < 0) { wrapped = 1; i = VPCACHE_SIZE - 1; } vpcache[i] = vp; i--
def Ring.load (ring : Ring) (vp : Nat) : Ring :=
  if ring.i < 0 then
    ⟨Function.update ring.cache (vpcacheSize-1) vp,vpcacheSize-2,true⟩
  else ⟨Function.update ring.cache ring.i.toNat vp,ring.i-1,ring.wrapped⟩

-- for (vp = pdu->variables, i = VPCACHE_SIZE - 1; vp && vp != tmpvp; ...)
def Ring.fill (cache : Nat → Nat) (tmpvp : Nat) : Ring :=
  (List.range tmpvp).foldl Ring.load ⟨cache,vpcacheSize-1,false⟩

def Ring.final (ring : Ring) : Nat := (ring.i+1).toNat

def visitSlots (visit : Nat → Rb Unit) (cache : Nat → Nat) : Nat → Nat → Rb Unit
  | _,0 => return ()
  | first,count+1 => do
    visit (cache first)
    visitSlots visit cache (first+1) count

-- The do loop over the cache. Each round that goes on has dealt with 50 variables.
def vpcacheLoop (visit : Nat → Rb Unit) : Nat → Ring → Rb Unit
  | 0,_ => Backfill.fail
  | rounds+1,ring => do
    visitSlots visit ring.cache ring.final (vpcacheSize-ring.final)
    if ring.wrapped then do
      visitSlots visit ring.cache 0 ring.final
      let tmpvp := if ring.final = 0 then ring.cache (vpcacheSize-1) else ring.cache (ring.final-1)
      vpcacheLoop visit rounds (Ring.fill ring.cache tmpvp)
    else return ()

def lastSlot (m : Nat) : Nat := if m = 0 then 50 else 49-(m-1)%50

theorem lastSlot_succ (m : Nat) : lastSlot (m+1) = 49-m%50 := by simp [lastSlot]

-- Counting from that slot on, round the ring, the cache holds the last variable,
-- the last but one and so on.
structure Loaded (m : Nat) (ring : Ring) : Prop where
  position : ring.i+1 = lastSlot m
  wrapped : ring.wrapped = decide (50 < m)
  cached : ∀ back, back < m → back < 50 → ring.cache ((lastSlot m+back)%50) = m-1-back

theorem loaded_final (loaded : Loaded m ring) : ring.final = lastSlot m := by
  rw [Ring.final,loaded.position,Int.toNat_natCast]

theorem loaded_start (cache : Nat → Nat) : Loaded 0 ⟨cache,vpcacheSize-1,false⟩ where
  position := rfl
  wrapped := rfl
  cached := fun back few _ => absurd few (Nat.not_lt_zero back)

theorem loaded_step (loaded : Loaded m ring) : Loaded (m+1) (ring.load m) := by
  have position := loaded.position
  have next := lastSlot_succ m
  have around : m ≠ 0 → lastSlot m%50 = (lastSlot (m+1)+1)%50 := by
    intro some
    rw [next,lastSlot,if_neg some]
    omega
  have cached : ∀ back, back < m+1 → back < 50 →
      Function.update ring.cache (lastSlot (m+1)) m ((lastSlot (m+1)+back)%50) = m-back := by
    intro back few inside
    cases back with
    | zero =>
      rw [Nat.mod_eq_of_lt (by omega)]
      simp
    | succ back =>
      have before := loaded.cached back (by omega) (by omega)
      have moved := around (by omega)
      have slot : (lastSlot (m+1)+(back+1))%50 = (lastSlot m+back)%50 := by omega
      rw [slot,Function.update_of_ne (by omega),before]
      omega
  by_cases spent : ring.i < 0
  · have full : m ≠ 0 ∧ (m-1)%50 = 49 := by
      unfold lastSlot at position
      split at position <;> omega
    have slot : lastSlot (m+1) = vpcacheSize-1 := by simp only [vpcacheSize]; omega
    rw [Ring.load,if_pos spent,← slot]
    refine ⟨?_,?_,cached⟩
    · simp only [slot,vpcacheSize]; rfl
    · simp only [Bool.true_eq,decide_eq_true_eq]; omega
  have slot : lastSlot (m+1) = ring.i.toNat := by
    unfold lastSlot at position
    split at position <;> omega
  have same : decide (50 < m) = decide (50 < m+1) := by
    unfold lastSlot at position
    rw [decide_eq_decide]
    split at position <;> omega
  rw [Ring.load,if_neg spent,← slot]
  refine ⟨?_,?_,cached⟩
  · dsimp only; omega
  · rw [← same]; exact loaded.wrapped

theorem loaded_fill (cache : Nat → Nat) (m : Nat) : Loaded m (Ring.fill cache m) := by
  induction m with
  | zero => exact loaded_start cache
  | succ m ih =>
    rw [Ring.fill,range_succ,foldl_append]
    exact loaded_step ih

def visitAll (visit : Nat → Rb Unit) : List Nat → Rb Unit
  | [] => return ()
  | vp :: rest => do
    visit vp
    visitAll visit rest

theorem visitAll_append (visit : Nat → Rb Unit) (first second : List Nat) :
    visitAll visit (first++second) = visitAll visit first >>= fun _ => visitAll visit second := by
  induction first with
  | nil => rfl
  | cons vp rest ih => rw [cons_append,visitAll,ih,visitAll,Backfill.bind_assoc]

theorem visitAll_return (visit : Nat → Rb Unit) (order : List Nat) :
    (visitAll visit order >>= fun _ => pure ()) = visitAll visit order := by
  have whole := visitAll_append visit order []
  rw [append_nil] at whole
  exact whole.symm

theorem visitSlots_eq (visit : Nat → Rb Unit) (cache : Nat → Nat) (first count : Nat) :
    visitSlots visit cache first count = visitAll visit ((range' first count).map cache) := by
  induction count generalizing first with
  | zero => rfl
  | succ count ih => rw [visitSlots,ih,range'_succ,map_cons,visitAll]

theorem reverse_range (m : Nat) : (range m).reverse = (range m).map (m-1-·) := by
  refine ext_getElem (by simp) fun back _ _ => ?_
  simp

theorem reverse_range_split (few : count ≤ m) :
    (range m).reverse = (range count).map (m-1-·)++(range (m-count)).reverse := by
  rw [reverse_range,reverse_range]
  refine ext_getElem (by simp; omega) fun back inside _ => ?_
  rw [getElem_append]
  split
  · simp
  rename_i beyond
  simp only [length_map,length_range] at beyond
  simp
  omega

theorem loaded_upper (loaded : Loaded m ring) (some : m ≠ 0) :
    (range' ring.final (vpcacheSize-ring.final)).map ring.cache = (range (min m (50-lastSlot m))).map (m-1-·) := by
  have slot : lastSlot m = 49-(m-1)%50 := by rw [lastSlot,if_neg some]
  rw [loaded_final loaded]
  refine ext_getElem (by simp [vpcacheSize]; omega) fun back inside other => ?_
  simp only [length_map,length_range',vpcacheSize] at inside
  simp only [length_map,length_range] at other
  have found := loaded.cached back (by omega) (by omega)
  rw [Nat.mod_eq_of_lt (by omega)] at found
  simp [found]

theorem loaded_lower (loaded : Loaded m ring) (many : 50 < m) : (range' 0 ring.final).map ring.cache =
      (range (lastSlot m)).map fun back => m-1-(50-lastSlot m+back) := by
  have slot : lastSlot m = 49-(m-1)%50 := by rw [lastSlot,if_neg (by omega)]
  rw [loaded_final loaded]
  refine ext_getElem (by simp) fun back inside other => ?_
  simp only [length_map,length_range'] at inside
  have found := loaded.cached (50-lastSlot m+back) (by omega) (by omega)
  rw [show (lastSlot m+(50-lastSlot m+back))%50 = back by omega] at found
  simp [found]

theorem loaded_tmpvp (loaded : Loaded m ring) (many : 50 < m) :
    (if ring.final = 0 then ring.cache (vpcacheSize-1) else ring.cache (ring.final-1)) = m-50 := by
  have slot : lastSlot m = 49-(m-1)%50 := by rw [lastSlot,if_neg (by omega)]
  have found := loaded.cached 49 (by omega) (by omega)
  rw [loaded_final loaded]
  split
  · rename_i zero
    rw [zero] at found
    rw [show vpcacheSize-1 = (0+49)%50 from rfl,found]
    omega
  · rw [show lastSlot m-1 = (lastSlot m+49)%50 by omega,found]
    omega

theorem vpcacheLoop_eq (visit : Nat → Rb Unit) (rounds m : Nat) (loaded : Loaded m ring)
    (enough : m ≤ 50*rounds) (some : 0 < rounds) :
    vpcacheLoop visit rounds ring = visitAll visit (range m).reverse := by
  induction rounds generalizing m ring with
  | zero => omega
  | succ rounds ih =>
    rw [vpcacheLoop,visitSlots_eq,visitSlots_eq,loaded.wrapped]
    by_cases many : 50 < m
    · have slot : lastSlot m = 49-(m-1)%50 := by rw [lastSlot,if_neg (by omega)]
      have again := ih (m-50) (loaded_fill ring.cache (m-50)) (by omega) (by omega)
      have block : (range 50).map (m-1-·) = (range (min m (50-lastSlot m))).map (m-1-·) ++
          (range (lastSlot m)).map fun back => m-1-(50-lastSlot m+back) := by
        rw [min_eq_right (by omega),show 50 = 50-lastSlot m+lastSlot m by omega,range_add,
          map_append,map_map,← show 50 = 50-lastSlot m+lastSlot m by omega]
        rfl
      rw [if_pos (by simpa using many),loaded_upper loaded (by omega),loaded_lower loaded many,
        loaded_tmpvp loaded many,again,reverse_range_split (show 50 ≤ m by omega),block,append_assoc,
        visitAll_append,visitAll_append]
    · rw [if_neg (by simpa using many)]
      by_cases empty : m = 0
      · subst m
        rw [loaded_final loaded]
        rfl
      · have slot : lastSlot m = 49-(m-1)%50 := by rw [lastSlot,if_neg empty]
        rw [loaded_upper loaded empty,min_eq_left (by omega),← reverse_range]
        exact visitAll_return visit _

def visitVariable (vars : List Variable) (vp : Nat) : Rb Unit :=
  match vars[vp]? with
  | some v => snmpReallocRbuildVarOp true v
  | none => Backfill.fail

-- The slots of the cache are uninitialised at first; `junk` is what they hold.
def rbuildVarBinds (junk : Nat → Nat) (vars : List Variable) : Rb Unit :=
  vpcacheLoop (visitVariable vars) (vars.length+1) (Ring.fill junk vars.length)

theorem visitAll_variables (few : m ≤ vars.length) :
    visitAll (visitVariable vars) (range m).reverse = (vars.take m).reverse.forM (snmpReallocRbuildVarOp true) := by
  induction m with
  | zero => rfl
  | succ m ih =>
    have present : vars[m]? = some (vars.get ⟨m,few⟩) := by simp
    rw [range_succ,reverse_append,reverse_singleton,singleton_append,visitAll,ih (by omega),visitVariable,take_add_one,
      present,Option.toList_some,reverse_append,reverse_singleton,singleton_append]
    rfl

theorem variables_backwards (junk : Nat → Nat) (vars : List Variable) (more : Nat) :
    (∀ visit, vpcacheLoop visit (vars.length+1+more) (Ring.fill junk vars.length) = visitAll visit (range vars.length).reverse) ∧
      rbuildVarBinds junk vars = vars.reverse.forM (snmpReallocRbuildVarOp true) := by
  have delivered : ∀ visit rounds, vars.length < rounds →
      vpcacheLoop visit rounds (Ring.fill junk vars.length) = visitAll visit (range vars.length).reverse :=
    fun visit rounds enough => vpcacheLoop_eq visit rounds vars.length (loaded_fill junk _) (by omega) (by omega)
  refine ⟨fun visit => delivered visit _ (by omega),?_⟩
  rw [rbuildVarBinds,delivered _ _ (Nat.lt_succ_self _),visitAll_variables le_rfl,take_length]

def rbuildRequestFields (pdu : Pdu) : Rb Unit := do
  asnReallocRbuildInt true asnInteger pdu.errindex sizeofLong
  asnReallocRbuildInt true asnInteger pdu.errstat sizeofLong
  asnReallocRbuildInt true asnInteger pdu.reqid sizeofLong

def rbuildTrapFields (pdu : Pdu) : Rb Unit := do
  asnReallocRbuildUnsignedInt true asnTimeticks pdu.time sizeofLong
  asnReallocRbuildInt true asnInteger pdu.specificType sizeofLong
  asnReallocRbuildInt true asnInteger pdu.trapType sizeofLong
  asnReallocRbuildString true asnIpaddress pdu.agentAddr
  asnReallocRbuildObjid true asnObjectId pdu.enterprise

-- The return code of the variable-bindings header is overwritten unread.
def rbuildBody (junk : Nat → Nat) (pdu : Pdu) : Rb Unit := do
  let size ← Backfill.measured (rbuildVarBinds junk pdu.variableList)
  Backfill.ignore (asnReallocRbuildSequence true asnSequenceConstructor size)
  if pdu.command ≠ snmpMsgTrap then rbuildRequestFields pdu else rbuildTrapFields pdu

def snmpPduReallocRbuild (junk : Nat → Nat) (pdu : Pdu) : Rb Unit := do
  let size ← Backfill.measured (rbuildBody junk pdu)
  asnReallocRbuildSequence true (UInt8.ofNat pdu.command) size

end NetSnmp.PduRbuild
