import SipxExternals.NetSnmpAsnFraming
import SipxExternals.NetSnmpPduParse

namespace NetSnmp.PduFraming
open Foundations AsnTypes AsnParse PduParse AsnFraming
open Interaction (run_bind_eq_ok run_bind_ok run_failWith_ok)
open Probe (Within slice within_bind within_failWith within_pure)

-- The fields in front of the variable bindings, by the kind of their value.
def fieldKinds (command : Nat) : Option (List ValueKind) :=
  if command = snmpMsgTrap then some [.objid,.string,.integer,.integer,.unsigned]
  else if isMsgCommand command then some [.integer,.integer,.integer]
  else none

def Peeks : ValueKind → Prop
  | .integer | .unsigned => True
  | _ => False

def FieldContent (memory : Memory) : ValueKind → Nat → Nat → Prop
  | .integer => fun length _ => length ≤ 8
  | .unsigned => NumberContent memory
  | .string => fun length _ => length ≤ 4
  | .objid => fun length start => ObjidContent (slice memory start length)
  | _ => fun _ _ => False

-- A field with an identifier and a content of its kind that ends before `stop`. The
-- next one begins at `next`.
def Taken (memory : Memory) (kind : ValueKind) (data stop next : Nat) : Prop :=
  memory data ∈ kindTypes kind ∧ ∃ length start, Object memory (data+1) data (stop-data) length start ∧
    FieldContent memory kind length start ∧ next = start+length

inductive Passed (memory : Memory) (stop : Nat) : List ValueKind → Nat → Nat → Prop where
  | nil : Passed memory stop [] data data
  | cons (here : Taken memory kind data stop middle) (rest : Passed memory stop kinds middle next) :
      Passed memory stop (kind :: kinds) data next

def FieldsFit (memory : Memory) (n stop : Nat) : List ValueKind → Nat → Prop
  | [],_ => True
  | kind :: kinds,data => FieldFits memory n (kindTypes kind) (Peeks kind) data (stop-data) ∧
    ∀ next, Taken memory kind data stop next → FieldsFit memory n stop kinds next

structure Chain (memory : Memory) (stop : Nat) (kinds : List ValueKind) (data : Nat) (kept : List Variable)
    (part : Probe Unit (Pdu × Nat × Nat)) : Prop where
  ends : ∀ fields next left, part.run memory = .ok (fields,next,left) →
    Passed memory stop kinds data next ∧ next+left = stop ∧ fields.variableList = kept
  passes : ∀ next, Passed memory stop kinds data next → ∃ fields, part.run memory = .ok (fields,next,stop-next)
  within : ∀ n, stop ≤ n → (Within n part memory ↔ FieldsFit memory n stop kinds data)

theorem chain_nil (all : next+left = stop) (kept : fields.variableList = vars) :
    Chain memory stop [] next vars (pure (fields,next,left)) := by
  refine ⟨fun _ _ _ ran => ?_,fun last passed => ?_,fun n _ => by simp [FieldsFit]⟩
  · cases ran
    exact ⟨.nil,all,kept⟩
  · cases passed
    exact ⟨fields,by rw [← all,Nat.add_sub_cancel_left]; rfl⟩

section
variable {part : Probe ε (Parsed α)} (field : Field memory (kindTypes kind) (Peeks kind) (FieldContent memory kind) data budget part)
  (all : data+budget = stop)
include field all

theorem taken_of_run (ran : part.run memory = .ok found) :
    Taken memory kind data stop found.next ∧ found.next+found.left = stop := by
  obtain ⟨type,length,start,object,next,left⟩ := field.ends found ran
  have content := (field.accepts length start object type).mp ⟨found,ran⟩
  have bounds := object_bounds object
  obtain rfl : budget = stop-data := by omega
  exact ⟨⟨type,length,start,object,content,next⟩,by omega⟩

theorem run_of_taken (taken : Taken memory kind data stop next) :
    ∃ found, part.run memory = .ok found ∧ found.next = next := by
  obtain ⟨type,length,start,object,content,rfl⟩ := taken
  obtain rfl : budget = stop-data := by omega
  obtain ⟨found,ran⟩ := (field.accepts length start object type).mpr content
  obtain ⟨-,size,begin,other,next,-⟩ := field.ends found ran
  obtain ⟨rfl,rfl⟩ := object_unique object other
  exact ⟨found,ran,next⟩

theorem chain_cons {follow : Parsed α → Probe Unit (Pdu × Nat × Nat)}
    (rest : ∀ found, found.next+found.left = stop → Chain memory stop kinds found.next kept (follow found)) :
    Chain memory stop (kind :: kinds) data kept (part.failWith () >>= follow) := by
  refine ⟨fun fields next left ran => ?_,fun next passed => ?_,fun n inside => ?_⟩
  · obtain ⟨found,first,ran⟩ := run_bind_eq_ok.mp ran
    obtain ⟨taken,sum⟩ := taken_of_run field all (run_failWith_ok.mp first)
    obtain ⟨passed,others⟩ := (rest found sum).ends fields next left ran
    exact ⟨.cons taken passed,others⟩
  · cases passed with
    | cons here passed =>
      obtain ⟨found,ran,rfl⟩ := run_of_taken field all here
      rw [run_bind_ok _ (run_failWith_ok.mpr ran)]
      exact (rest found (taken_of_run field all ran).2).passes next passed
  rw [within_bind,within_failWith,field.within n (contentIn_budget (by omega)),FieldsFit,← all,Nat.add_sub_cancel_left]
  refine and_congr_right fun _ => ⟨fun each next taken => ?_,fun each found ran => ?_⟩
  · obtain ⟨found,ran,rfl⟩ := run_of_taken field rfl taken
    have sum := (taken_of_run field all ran).2
    rw [all]
    exact ((rest found sum).within n inside).mp (each found (run_failWith_ok.mpr ran))
  · obtain ⟨taken,sum⟩ := taken_of_run field all (run_failWith_ok.mp ran)
    rw [all] at each
    exact ((rest found sum).within n inside).mpr (each found.next taken)

end

theorem parseRequestFields_chain (all : data+length = stop) (kept : pdu.variableList = vars) :
    Chain memory stop [.integer,.integer,.integer] data vars (parseRequestFields pdu data length) := by
  refine chain_cons asnParseInt_field all fun reqid one => ?_
  refine chain_cons asnParseInt_field one fun errstat two => ?_
  exact chain_cons asnParseInt_field two fun errindex three => chain_nil three kept

theorem parseTrapFields_chain (all : data+length = stop) (kept : pdu.variableList = vars) :
    Chain memory stop [.objid,.string,.integer,.integer,.unsigned] data vars (parseTrapFields pdu data length) := by
  refine chain_cons asnParseObjid_field all fun enterprise one => ?_
  refine chain_cons (asnParseString_field 4) one fun address two => ?_
  refine chain_cons asnParseInt_field two fun generic three => ?_
  refine chain_cons asnParseInt_field three fun specific four => ?_
  exact chain_cons asnParseUnsignedInt_field four fun time five => chain_nil five kept

theorem parseFields_chain (known : fieldKinds header.type.toNat = some kinds) :
    Chain memory (header.next+header.length) kinds header.next pdu.variableList (parseFields pdu header) := by
  unfold fieldKinds at known
  unfold parseFields
  dsimp only
  by_cases trap : header.type.toNat = snmpMsgTrap
  · rw [if_pos trap] at known ⊢
    cases known
    exact parseTrapFields_chain rfl rfl
  rw [if_neg trap] at known ⊢
  split at known
  · rename_i message
    cases known
    split <;> exact parseRequestFields_chain rfl rfl
  · cases known

theorem parseFields_unknown (unknown : fieldKinds header.type.toNat = none) : parseFields pdu header = .fail () := by
  unfold fieldKinds at unknown
  split at unknown
  · cases unknown
  rename_i trap
  split at unknown
  · cases unknown
  rename_i message
  have neither : ¬ (header.type.toNat = snmpMsgResponse ∨ header.type.toNat = snmpMsgReport) := by
    rintro (same | same) <;> exact message (by rw [same]; rfl)
  unfold parseFields
  dsimp only
  rw [if_neg trap,if_neg neither,if_neg message]

inductive Listed (memory : Memory) (data length : Nat) (list : Header) : Prop where
  | behind (header : Header) (next : Nat) (headed : Headed memory data length header)
      (known : fieldKinds header.type.toNat = some kinds)
      (passed : Passed memory (header.next+header.length) kinds header.next next)
      (opened : Headed memory next (header.next+header.length-next) list) (type : list.type = asnSequenceConstructor)

-- A variable binding: a SEQUENCE that begins with the name. The value stands at `val`.
inductive Binding (memory : Memory) (data stop val : Nat) (value : Header) : Prop where
  | mk (sequence : Header) (opened : Headed memory data (stop-data) sequence) (type : sequence.type = asnSequenceConstructor)
      (name : Taken memory .objid sequence.next (sequence.next+sequence.length) val)
      (headed : Headed memory val (sequence.next+sequence.length-val) value)

theorem asnParseObjid_type (named : (asnParseObjid data budget).run memory = .ok name) : name.type = asnObjectId := by
  rw [asnParseObjid,Probe.run_bind_fetch] at named
  split at named
  · cases named
  rename_i same
  obtain ⟨_,_,_,rest⟩ := sized_ok named
  obtain ⟨_,_,rest⟩ := run_bind_eq_ok.mp rest
  cases rest
  exact not_not.mp same

theorem snmpParseVarOp_ok (parsed : (snmpParseVarOp data length).run memory = .ok op) :
    ∃ value, Binding memory data (data+length) op.val value ∧
      op = ⟨op.name,value.type,value.length,op.val,value.next+value.length,length-(value.next+value.length-data)⟩ := by
  obtain ⟨sequence,opened,rest⟩ := run_bind_eq_ok.mp parsed
  obtain ⟨name,named,rest⟩ := run_bind_eq_ok.mp rest
  obtain ⟨taken,sum⟩ := taken_of_run asnParseObjid_field rfl (run_failWith_ok.mp named)
  split at rest
  · cases rest
  obtain ⟨value,read,rest⟩ := run_bind_eq_ok.mp rest
  cases rest
  obtain ⟨opened,type⟩ := asnParseSequence_iff.mp opened
  refine ⟨value,⟨sequence,?_,type,taken,?_⟩,rfl⟩
  · rwa [Nat.add_sub_cancel_left]
  · rw [← sum,Nat.add_sub_cancel_left]
    exact asnParseHeader_iff.mp read

theorem binding_parsed (binding : Binding memory data (data+length) val value) : ∃ name, (snmpParseVarOp data length).run memory =
    .ok ⟨name,value.type,value.length,val,value.next+value.length,length-(value.next+value.length-data)⟩ := by
  obtain ⟨sequence,opened,type,taken,headed⟩ := binding
  rw [Nat.add_sub_cancel_left] at opened
  obtain ⟨name,named,rfl⟩ := run_of_taken asnParseObjid_field rfl taken
  have sum := (taken_of_run asnParseObjid_field rfl named).2
  rw [← sum,Nat.add_sub_cancel_left] at headed
  refine ⟨name.value,?_⟩
  rw [snmpParseVarOp,run_bind_ok _ (asnParseSequence_iff.mpr ⟨opened,type⟩),run_bind_ok _ (run_failWith_ok.mpr named),
    if_neg (not_not.mpr (asnParseObjid_type named)),run_bind_ok _ (asnParseHeader_iff.mpr headed)]
  rfl

theorem binding_bounds (binding : Binding memory data stop val value) :
    data+1 < value.next ∧ value.next+value.length ≤ stop ∧ Headed memory val maxPacketLength value := by
  obtain ⟨sequence,opened,-,⟨-,length,start,object,-,rfl⟩,headed⟩ := binding
  have outer := headed_bounds opened
  have name := object_bounds object
  have inner := headed_bounds headed
  refine ⟨by omega,by omega,headed_larger headed ?_⟩
  rw [maxPacketLength]
  omega

end NetSnmp.PduFraming
