import SipxExternals.NetSnmpAsnParse

namespace NetSnmp.SessRead
open Foundations AsnTypes AsnParse List
open Interaction (run_bind_ok)
open Probe (image holds_cons holds_append holds_image run_bind_fetch run_fetchMany slice_of_holds)
open UInt8 (ofNat)

def rxbufLen : Nat := 65536
def maximumPacketSize : Nat := 0x7fffffff

-- What asn_parse_length leaves in asn_length, whose return value is not looked at. For a
-- length of length it does not support the variable keeps what it held.
def parsedLength (garbage : Nat) (pkt : List UInt8) : Nat :=
  match (asnParseLength 1).run (image pkt) with
  | .ok found => found.1
  | .error _ =>
    let count := (image pkt 1 &&& 0x7f).toNat
    if count = 0 ∨ count > sizeofLong then garbage else octetsValue ((pkt.drop 2).take count)

def asnCheckPacket (garbage : Nat) (pkt : List UInt8) : Int :=
  match pkt with
  | type :: lengthbyte :: _ =>
    if type ≠ asnSequenceConstructor then -1
    else if lengthbyte &&& asnLongLen ≠ 0 then
      let count := (lengthbyte &&& 0x7f).toNat
      if cInt pkt.length < count+2 then 0 else cInt (parsedLength garbage pkt+2+count)
    else lengthbyte.toNat+2
  | _ => 0

def sizeT (x : Int) : Nat := (x%2^64).toNat

inductive LoopEnd where
  | broken
  | left (rest : List UInt8)

-- The loop over the octets from pptr on, with the packets it hands to _sess_process_packet.
def packetLoop (garbage : Nat) : Nat → List UInt8 → List (List UInt8) × LoopEnd
  | 0,rest => ([],.left rest)
  | fuel+1,rest =>
    if rest.length = 0 then ([],.left rest)
    else
      let pdulen := sizeT (asnCheckPacket garbage rest)
      if pdulen > maxPacketLength then ([],.broken)
      else if pdulen > rest.length ∨ pdulen = 0 then ([],.left rest)
      else
        let more := packetLoop garbage fuel (rest.drop pdulen)
        (rest.take pdulen :: more.1,more.2)

-- The octets saved in isp->packet and the size of the buffer; none is a NULL isp->packet.
structure Session where
  packet : List UInt8
  packetSize : Option Nat
  closed : Bool

def Session.start : Session := ⟨[],none,false⟩
def Session.close : Session := ⟨[],none,true⟩

def grownSize (s : Session) : Nat :=
  match s.packetSize with
  | none => rxbufLen
  | some size => if size < s.packet.length+rxbufLen then s.packet.length+rxbufLen else size

-- The stream branch; `chunk` is what netsnmp_transport_recv returned.
def sessRead (garbage : Nat) (s : Session) (chunk : List UInt8) : List (List UInt8) × Session :=
  if s.closed then ([],s)
  else if chunk.length = 0 then ([],.close)
  else match packetLoop garbage (s.packet++chunk).length (s.packet++chunk) with
    | (packets,.broken) => (packets,.close)
    | (packets,.left rest) =>
      if packets = [] ∧ rest ≠ [] then (packets,⟨rest,some (grownSize s),s.closed⟩)
      else if rest.length ≥ maximumPacketSize then (packets,.close)
      else if rest.length = 0 then (packets,⟨[],none,s.closed⟩)
      else (packets,⟨rest,some rest.length,s.closed⟩)

def sessReadAll (garbage : Nat) : Session → List (List UInt8) → List (List UInt8) × Session
  | s,[] => ([],s)
  | s,chunk :: chunks =>
    let first := sessRead garbage s chunk
    let rest := sessReadAll garbage first.2 chunks
    (first.1++rest.1,rest.2)

def LengthField (field : List UInt8) (length : Nat) : Prop :=
  (length < 0x80 ∧ field = [UInt8.ofNat length]) ∨
    ∃ octets : List UInt8, 0 < octets.length ∧ octets.length ≤ sizeofLong ∧ octetsValue octets = length ∧
      field = UInt8.ofNat (0x80+octets.length) :: octets

def BerSequence (message : List UInt8) : Prop :=
  ∃ field content, message = asnSequenceConstructor :: field++content ∧ LengthField field content.length ∧
    message.length ≤ maxPacketLength

theorem length_marked (few : n ≤ sizeofLong) :
    ofNat (0x80+n) &&& asnLongLen ≠ 0 ∧ (ofNat (0x80+n) &&& 0x7f).toNat = n := by
  have marked : ∀ n : Fin 9, ofNat (0x80+n.val) &&& asnLongLen ≠ 0 ∧
      (ofNat (0x80+n.val) &&& 0x7f).toNat = n.val := by decide
  exact marked ⟨n,Nat.lt_succ_of_le few⟩

theorem asnParseLength_long (rest : List UInt8) (some_octets : 0 < octets.length) (few : octets.length ≤ sizeofLong)
    (small : octetsValue octets < 2^63) (type : UInt8) :
    (asnParseLength 1).run (image (type :: ofNat (0x80+octets.length) :: (octets++rest))) =
      .ok (octetsValue octets,2+octets.length) := by
  have held := holds_image (type :: ofNat (0x80+octets.length) :: (octets++rest))
  obtain ⟨-,held⟩ := holds_cons.mp held
  obtain ⟨here,held⟩ := holds_cons.mp held
  obtain ⟨octets_held,-⟩ := holds_append.mp held
  obtain ⟨long,count⟩ := length_marked few
  simp only [sizeofLong] at few
  rw [asnParseLength,run_bind_fetch,here,if_neg long,count,if_neg (by omega),if_neg (by simp only [sizeofLong]; omega),
    run_bind_ok _ (run_fetchMany _ _ _),slice_of_holds octets_held rfl,if_neg (by omega)]
  rfl

-- A message is measured as soon as its length can be read, and never wrongly before.
section
variable (garbage : Nat)
include garbage

theorem check_long (some_octets : 0 < octets.length)
    (few : octets.length ≤ sizeofLong) (total : octetsValue octets+2+octets.length ≤ maxPacketLength)
    (held : octets.length+2+rest.length ≤ maxPacketLength) :
    asnCheckPacket garbage (asnSequenceConstructor :: ofNat (0x80+octets.length) :: (octets++rest)) =
      (octetsValue octets+2+octets.length : Nat) := by
  simp only [maxPacketLength] at total held
  have read := asnParseLength_long rest some_octets few (by omega) asnSequenceConstructor
  obtain ⟨long,count⟩ := length_marked few
  simp only [sizeofLong] at few
  have length : cInt (asnSequenceConstructor :: ofNat (0x80+octets.length) :: (octets++rest)).length =
      octets.length+2+rest.length := by
    rw [length_cons,length_cons,length_append,cInt_small (by omega)]
    omega
  rw [asnCheckPacket,if_neg (by simp),if_pos long,count,length,if_neg (by omega),parsedLength,read]
  exact cInt_small (by omega)

theorem check_unmeasured (lengthbyte : UInt8) (rest : List UInt8) (long : lengthbyte &&& asnLongLen ≠ 0)
    (short : cInt (rest.length+2) < (lengthbyte &&& 0x7f).toNat+2) :
    asnCheckPacket garbage (asnSequenceConstructor :: lengthbyte :: rest) = 0 := by
  rw [asnCheckPacket,if_neg (by simp),if_pos long]
  exact if_pos short

theorem check_short {length : Nat} (small : length < 0x80) (rest : List UInt8) :
    asnCheckPacket garbage (asnSequenceConstructor :: ofNat length :: rest) = (length+2 : Nat) := by
  have clear : ∀ n : Fin 128, ofNat n.val &&& asnLongLen = 0 := by decide
  rw [asnCheckPacket,if_neg (by simp),if_neg (not_not.mpr (clear ⟨length,small⟩)),UInt8.toNat_ofNat',
    Nat.mod_eq_of_lt (by omega)]
  rfl

theorem check_whole (message : BerSequence m) (tail : List UInt8)
    (small : (m++tail).length ≤ maxPacketLength) : asnCheckPacket garbage (m++tail) = m.length := by
  obtain ⟨field,content,rfl,⟨short,rfl⟩ | ⟨octets,some_octets,few,value,rfl⟩,bounded⟩ := message
  · have checked := check_short garbage short (content++tail)
    exact checked
  simp only [cons_append,length_cons,length_append] at small bounded ⊢
  rw [append_assoc,check_long garbage some_octets few (by omega)
    (by rw [length_append]; omega),value]
  exact congrArg Nat.cast (by omega)

theorem check_part (message : BerSequence m) (part : p <+: m) :
    asnCheckPacket garbage p = 0 ∨ asnCheckPacket garbage p = m.length := by
  obtain ⟨field,content,rfl,form,bounded⟩ := message
  have small := part.length_le.trans bounded
  match p,part,small with
  | [],_,_ => exact .inl rfl
  | [first],_,_ => exact .inl rfl
  | first :: second :: rest,part,small =>
    obtain ⟨rfl,behind⟩ := cons_prefix_cons.mp part
    rcases form with ⟨short,rfl⟩ | ⟨octets,some_octets,few,value,rfl⟩
    · obtain ⟨rfl,-⟩ := cons_prefix_cons.mp behind
      exact .inr (check_short garbage short rest)
    obtain ⟨rfl,body⟩ := cons_prefix_cons.mp behind
    simp only [cons_append,length_cons,length_append] at small bounded ⊢
    obtain ⟨long,count⟩ := length_marked few
    by_cases missing : rest.length < octets.length
    · refine .inl (check_unmeasured garbage _ rest long ?_)
      rw [count,cInt_small (by simp only [maxPacketLength] at small; omega)]
      omega
    obtain ⟨more,rfl⟩ := prefix_of_prefix_length_le (prefix_append octets content) body (by omega)
    right
    rw [length_append] at small
    rw [check_long garbage some_octets few (by omega) (by omega),value]
    exact congrArg Nat.cast (by omega)

end

theorem message_pos (message : BerSequence m) : 0 < m.length := by
  obtain ⟨field,content,rfl,-⟩ := message
  simp

theorem sizeT_small (n : Nat) (small : n ≤ maxPacketLength) : sizeT n = n := by
  simp only [maxPacketLength] at small
  rw [sizeT]
  omega

def Started (messages : List (List UInt8)) (rest : List UInt8) : Prop :=
  match messages with
  | [] => rest = []
  | next :: _ => rest <+: next ∧ rest.length < next.length

theorem stream_cut (messages : List (List UInt8)) (received : List UInt8) (all : ∀ m ∈ messages, 0 < m.length)
    (part : received <+: messages.flatten) :
    ∃ whole more rest, messages = whole++more ∧ received = whole.flatten++rest ∧ Started more rest := by
  induction messages generalizing received with
  | nil => exact ⟨[],[],[],rfl,by simpa using part,rfl⟩
  | cons next messages ih =>
    by_cases complete : next.length ≤ received.length
    · obtain ⟨behind,rfl⟩ := prefix_of_prefix_length_le (prefix_append next _) part complete
      obtain ⟨whole,more,rest,rfl,rfl,started⟩ := ih behind (forall_mem_cons.mp all).2
        ((prefix_append_right_inj next).mp part)
      exact ⟨next :: whole,more,rest,rfl,by simp,started⟩
    · have inside := prefix_of_prefix_length_le part (prefix_append next _) (by omega)
      exact ⟨[],next :: messages,received,rfl,rfl,inside,by omega⟩

theorem loop_ends (garbage : Nat) (all : ∀ m ∈ more, BerSequence m) (started : Started more rest) (fuel : Nat) :
    packetLoop garbage fuel rest = ([],.left rest) := by
  cases fuel with
  | zero => rfl
  | succ fuel =>
    rw [packetLoop]
    split
    · rfl
    rename_i some_octet
    cases more with
    | nil =>
      rw [Started] at started
      simp [started] at some_octet
    | cons next more =>
      obtain ⟨part,short⟩ := started
      have message := all next (.head _)
      have bounded : next.length ≤ maxPacketLength := by
        obtain ⟨field,content,-,-,bounded⟩ := message
        exact bounded
      have measured : sizeT (asnCheckPacket garbage rest) = 0 ∨ sizeT (asnCheckPacket garbage rest) = next.length := by
        rcases check_part garbage message part with zero | known
        · exact .inl (by rw [zero]; rfl)
        · exact .inr (by rw [known,sizeT_small _ bounded])
      rw [if_neg (by omega),if_pos (by omega)]

theorem loop_delivers (garbage : Nat) (whole : List (List UInt8)) (whole_messages : ∀ m ∈ whole, BerSequence m)
    (all : ∀ m ∈ more, BerSequence m) (started : Started more rest) (fuel : Nat)
    (small : (whole.flatten++rest).length ≤ maxPacketLength) (enough : (whole.flatten++rest).length ≤ fuel) :
    packetLoop garbage fuel (whole.flatten++rest) = (whole,.left rest) := by
  induction whole generalizing fuel with
  | nil => exact loop_ends garbage all started fuel
  | cons m whole ih =>
    have message := whole_messages m (.head _)
    have positive := message_pos message
    rw [flatten_cons,append_assoc] at small enough ⊢
    have measured := check_whole garbage message (whole.flatten++rest) small
    rw [length_append] at small enough
    cases fuel with
    | zero => omega
    | succ fuel =>
      rw [packetLoop,if_neg (by rw [length_append]; omega),measured,sizeT_small _ (by omega)]
      rw [if_neg (by omega),if_neg (by rw [length_append]; omega),drop_left,take_left,
        ih (forall_mem_cons.mp whole_messages).2 fuel (by omega) (by omega)]

-- The session is open and has saved the beginning of the next message.
structure Waiting (messages : List (List UInt8)) (s : Session) : Prop where
  opened : s.closed = false
  started : Started messages s.packet

section
variable (garbage : Nat) (all : ∀ m ∈ messages, BerSequence m) (waiting : Waiting messages s)
include garbage all waiting

theorem sessRead_step (some_octet : chunk ≠ []) (part : s.packet++chunk <+: messages.flatten)
    (small : (s.packet++chunk).length ≤ maxPacketLength) :
    ∃ whole more, messages = whole++more ∧ (sessRead garbage s chunk).1 = whole ∧
      s.packet++chunk = whole.flatten++(sessRead garbage s chunk).2.packet ∧
      Waiting more (sessRead garbage s chunk).2 := by
  obtain ⟨whole,more,rest,rfl,received,started⟩ := stream_cut messages (s.packet++chunk)
    (fun m mem => message_pos (all m mem)) part
  have whole_messages : ∀ m ∈ whole, BerSequence m := (forall_mem_append.mp all).1
  have more_messages : ∀ m ∈ more, BerSequence m := (forall_mem_append.mp all).2
  have looped : packetLoop garbage (s.packet++chunk).length (s.packet++chunk) = (whole,.left rest) := by
    rw [received] at small ⊢
    exact loop_delivers garbage whole whole_messages more_messages started _ small le_rfl
  have positive : ¬ chunk.length = 0 := by simpa using some_octet
  have read : sessRead garbage s chunk = (whole,
      if whole = [] ∧ rest ≠ [] then ⟨rest,some (grownSize s),s.closed⟩
      else if rest.length = 0 then ⟨[],none,s.closed⟩ else ⟨rest,some rest.length,s.closed⟩) := by
    rw [sessRead,if_neg (by simp [waiting.opened]),if_neg positive,looped]
    dsimp only
    split
    · rfl
    rename_i delivered
    have bounded : ¬ rest.length ≥ maximumPacketSize := by
      rw [received,length_append] at small
      simp only [maxPacketLength,maximumPacketSize] at small ⊢
      cases whole with
      | nil =>
        have empty : rest = [] := by simpa using delivered
        simp [empty]
      | cons m whole =>
        have first := message_pos (whole_messages m (.head _))
        rw [flatten_cons,length_append] at small
        omega
    rw [if_neg bounded]
    split
    · rfl
    · rfl
  have saved : (sessRead garbage s chunk).2.packet = rest ∧ (sessRead garbage s chunk).2.closed = s.closed := by
    rw [read]
    split
    · exact ⟨rfl,rfl⟩
    split
    · rename_i empty
      exact ⟨(length_eq_zero_iff.mp empty).symm,rfl⟩
    · exact ⟨rfl,rfl⟩
  refine ⟨whole,more,rfl,by rw [read],by rw [saved.1]; exact received,?_,?_⟩
  · rw [saved.2]
    exact waiting.opened
  · rw [saved.1]
    exact started

-- No receive makes the buffer hold more than an int can count.
def Bounded (garbage : Nat) : Session → List (List UInt8) → Prop
  | _,[] => True
  | s,chunk :: chunks => s.packet.length+chunk.length ≤ maxPacketLength ∧ Bounded garbage (sessRead garbage s chunk).2 chunks

theorem sessReadAll_waiting
    (some_octets : ∀ chunk ∈ chunks, chunk ≠ []) (part : s.packet++chunks.flatten <+: messages.flatten)
    (bounded : Bounded garbage s chunks) :
    ∃ whole more, messages = whole++more ∧ (sessReadAll garbage s chunks).1 = whole ∧
      s.packet++chunks.flatten = whole.flatten++(sessReadAll garbage s chunks).2.packet ∧
      Waiting more (sessReadAll garbage s chunks).2 := by
  induction chunks generalizing messages s with
  | nil => exact ⟨[],messages,rfl,rfl,by simp [sessReadAll],waiting⟩
  | cons chunk chunks ih =>
    rw [flatten_cons,← append_assoc] at part
    obtain ⟨whole,more,rfl,delivered,received,next⟩ := sessRead_step garbage all waiting
      (some_octets chunk (.head _)) ((prefix_append _ _).trans part)
      (by rw [length_append]; exact bounded.1)
    rw [received,append_assoc,flatten_append,prefix_append_right_inj] at part
    obtain ⟨later,last,rfl,rest_delivered,rest_received,final⟩ := ih
      (forall_mem_append.mp all).2 next
      (forall_mem_cons.mp some_octets).2 part bounded.2
    refine ⟨whole++later,last,(append_assoc _ _ _).symm,?_,?_,final⟩
    · rw [sessReadAll,delivered,rest_delivered]
    · rw [flatten_cons,← append_assoc,received,append_assoc,rest_received,flatten_append,append_assoc]
      rfl

theorem bounded_of_total
    (some_octets : ∀ chunk ∈ chunks, chunk ≠ []) (part : s.packet++chunks.flatten <+: messages.flatten)
    (total : (s.packet++chunks.flatten).length ≤ maxPacketLength) : Bounded garbage s chunks := by
  induction chunks generalizing messages s with
  | nil => trivial
  | cons chunk chunks ih =>
    rw [flatten_cons,← append_assoc] at part total
    have here : (s.packet++chunk).length ≤ maxPacketLength := by
      rw [length_append] at total
      omega
    obtain ⟨whole,more,rfl,delivered,received,next⟩ := sessRead_step garbage all waiting
      (some_octets chunk (.head _)) ((prefix_append _ _).trans part) here
    rw [received,append_assoc] at part total
    rw [flatten_append,prefix_append_right_inj] at part
    refine ⟨by rw [← length_append]; exact here,ih (forall_mem_append.mp all).2 next
      (forall_mem_cons.mp some_octets).2 part ?_⟩
    rw [length_append] at total
    omega

end

theorem start_waiting (all : ∀ m ∈ messages, BerSequence m) : Waiting messages .start := by
  refine ⟨rfl,?_⟩
  cases messages with
  | nil => rfl
  | cons next messages => exact ⟨ nil_prefix,message_pos (all next (.head _))⟩

theorem stream_delivered (garbage : Nat) (messages chunks : List (List UInt8)) (all : ∀ m ∈ messages, BerSequence m)
    (some_octets : ∀ chunk ∈ chunks, chunk ≠ []) (part : chunks.flatten <+: messages.flatten)
    (bounded : Bounded garbage .start chunks) :
    (∃ more, messages = (sessReadAll garbage .start chunks).1++more ∧
      chunks.flatten = (sessReadAll garbage .start chunks).1.flatten++(sessReadAll garbage .start chunks).2.packet ∧
      Started more (sessReadAll garbage .start chunks).2.packet) ∧
    (sessReadAll garbage .start chunks).2.closed = false ∧
    (chunks.flatten = messages.flatten → (sessReadAll garbage .start chunks).1 = messages) := by
  obtain ⟨whole,more,rfl,delivered,received,waiting⟩ := sessReadAll_waiting garbage all (start_waiting all)
    some_octets part bounded
  have received_all : chunks.flatten = whole.flatten++(sessReadAll garbage .start chunks).2.packet := received
  refine ⟨⟨more,by rw [delivered],by rw [delivered]; exact received_all,waiting.started⟩,waiting.opened,fun complete => ?_⟩
  rw [received_all,flatten_append,append_cancel_left_eq] at complete
  have started := waiting.started
  cases more with
  | nil => rw [delivered,append_nil]
  | cons next more =>
    obtain ⟨-,short⟩ := started
    rw [complete,flatten_cons,length_append] at short
    omega

theorem sessReadAll_append : sessReadAll garbage s (first++second) =
      ((sessReadAll garbage s first).1++(sessReadAll garbage (sessReadAll garbage s first).2 second).1,
        (sessReadAll garbage (sessReadAll garbage s first).2 second).2) := by
  induction first generalizing s with
  | nil => rfl
  | cons chunk first ih => rw [cons_append,sessReadAll,ih,sessReadAll,append_assoc]

def hugeHeader : List UInt8 := [0x30,0x84,0x7f,0xff,0xff,0xf9]
def hugeZeros : List UInt8 := List.replicate 0x7ffffff8 0
def hugeStart : List UInt8 := hugeHeader++hugeZeros
def hugeMessage : List UInt8 := hugeStart++[0]
def emptyMessage : List UInt8 := [0x30,0x00]

theorem hugeZeros_length : hugeZeros.length = 0x7ffffff8 := length_replicate

theorem hugeStart_length : hugeStart.length = 0x7ffffffe := by
  rw [hugeStart,length_append,hugeZeros_length]
  rfl

theorem hugeMessage_sequence : BerSequence hugeMessage := by
  refine ⟨[0x84,0x7f,0xff,0xff,0xf9],hugeZeros++[0],?_,.inr ⟨[0x7f,0xff,0xff,0xf9],by decide,by decide,?_,rfl⟩,?_⟩
  · rfl
  · rw [length_append,hugeZeros_length]
    rfl
  · rw [hugeMessage,length_append,hugeStart_length]
    decide

theorem emptyMessage_sequence : BerSequence emptyMessage := ⟨[0x00],[],rfl,.inl ⟨by decide,rfl⟩,by decide⟩

theorem samples_sequences : ∀ m ∈ [hugeMessage,emptyMessage], BerSequence m := by
  intro m mem
  simp only [mem_cons,not_mem_nil,or_false] at mem
  rcases mem with rfl | rfl
  · exact hugeMessage_sequence
  · exact emptyMessage_sequence

def hugeChunks : List (List UInt8) := hugeStart.map ([·])++[0 :: emptyMessage]

theorem flatten_singles (octets : List UInt8) : (octets.map ([·])).flatten = octets := by
  induction octets with
  | nil => rfl
  | cons octet octets ih => rw [map_cons,flatten_cons,ih,singleton_append]

theorem hugeStart_part : hugeStart <+: [hugeMessage,emptyMessage].flatten := by
  rw [flatten_cons,hugeMessage,append_assoc]
  exact prefix_append _ _

theorem hugeStart_saved : (sessReadAll 0 .start (hugeStart.map ([·]))).1 = [] ∧
    (sessReadAll 0 .start (hugeStart.map ([·]))).2.packet = hugeStart ∧
    (sessReadAll 0 .start (hugeStart.map ([·]))).2.closed = false := by
  have singles := flatten_singles hugeStart
  have some_octets : ∀ chunk ∈ hugeStart.map ([·]), chunk ≠ [] := fun chunk mem => by
    obtain ⟨octet,-,rfl⟩ := mem_map.mp mem
    simp
  have waiting := start_waiting samples_sequences
  have part : Session.start.packet++(hugeStart.map ([·])).flatten <+: [hugeMessage,emptyMessage].flatten := by
    rw [singles]
    exact hugeStart_part
  have total : (Session.start.packet++(hugeStart.map ([·])).flatten).length ≤ maxPacketLength := by
    rw [singles]
    change hugeStart.length ≤ maxPacketLength
    rw [hugeStart_length]
    decide
  obtain ⟨whole,more,split,delivered,received,final⟩ := sessReadAll_waiting 0 samples_sequences waiting some_octets part
    (bounded_of_total 0 samples_sequences waiting some_octets part total)
  have saved : hugeStart = whole.flatten++(sessReadAll 0 .start (hugeStart.map ([·]))).2.packet := by
    rw [← received,singles]
    rfl
  have none_whole : whole = [] := by
    cases whole with
    | nil => rfl
    | cons first whole =>
      have lengths := congrArg length saved
      rw [← (cons.inj split).1,flatten_cons,length_append,length_append,hugeMessage,
        length_append,length_singleton] at lengths
      omega
  rw [none_whole] at delivered saved
  rw [flatten_nil,nil_append] at saved
  exact ⟨delivered,saved.symm,final.opened⟩

theorem hugeStart_unmeasured : asnCheckPacket 0 (hugeStart++0 :: emptyMessage) = 0 := by
  have shape : hugeStart++0 :: emptyMessage = asnSequenceConstructor :: 0x84 ::
      ([0x7f,0xff,0xff,0xf9]++hugeZeros++0 :: emptyMessage) := by
    rw [hugeStart,hugeHeader]
    rfl
  have length : ([0x7f,0xff,0xff,0xf9]++hugeZeros++0 :: emptyMessage).length = 0x7fffffff := by
    rw [length_append,length_append,hugeZeros_length]
    rfl
  rw [shape]
  refine check_unmeasured 0 0x84 _ (by decide) ?_
  rw [length]
  decide

theorem unmeasured_kept (opened : s.closed = false) (some_octet : chunk ≠ [])
    (unmeasured : asnCheckPacket garbage (s.packet++chunk) = 0) : (sessRead garbage s chunk).1 = [] := by
  have looped : packetLoop garbage (s.packet++chunk).length (s.packet++chunk) = ([],.left (s.packet++chunk)) := by
    generalize s.packet++chunk = received at *
    cases received with
    | nil => rfl
    | cons octet received =>
      rw [length_cons,packetLoop,unmeasured,if_neg (by simp)]
      rfl
  rw [sessRead,if_neg (by simp [opened]),if_neg (by simpa using some_octet),looped]
  dsimp only
  rw [if_pos ⟨rfl,by simp [some_octet]⟩]

theorem hugeChunks_flatten : hugeChunks.flatten = [hugeMessage,emptyMessage].flatten := by
  rw [hugeChunks,flatten_append,flatten_singles,hugeMessage]
  simp

theorem huge_message_kept :
    (∀ m ∈ [hugeMessage,emptyMessage], BerSequence m) ∧ (∀ chunk ∈ hugeChunks, chunk ≠ [] ∧ chunk.length ≤ rxbufLen) ∧
    hugeChunks.flatten = [hugeMessage,emptyMessage].flatten ∧ (sessReadAll 0 .start hugeChunks).1 = [] := by
  refine ⟨samples_sequences,?_,hugeChunks_flatten,?_⟩
  · intro chunk member
    rcases mem_append.mp member with single | last
    · obtain ⟨octet,-,rfl⟩ := mem_map.mp single
      exact ⟨by simp,by simp [rxbufLen]⟩
    · rw [mem_singleton.mp last]
      exact ⟨by simp,by decide⟩
  obtain ⟨delivered,saved,opened⟩ := hugeStart_saved
  have kept := unmeasured_kept opened (cons_ne_nil 0 emptyMessage) (saved.symm ▸ hugeStart_unmeasured)
  have last : ∀ s : Session, (sessReadAll 0 s [0 :: emptyMessage]).1 = (sessRead 0 s (0 :: emptyMessage)).1 :=
    fun s => append_nil _
  rw [hugeChunks,sessReadAll_append,delivered,nil_append,last]
  exact kept

def sampleMessages : List (List UInt8) := [[0x30,0x81,0x02,0x05,0x00],emptyMessage]
def sampleChunks : List (List UInt8) := [[0x30],[0x81,0x02],[0x05,0x00,0x30],[0x00]]

theorem stream_delivered_sample : (sessReadAll 0 .start sampleChunks).1 = sampleMessages := by
  have all : ∀ m ∈ sampleMessages, BerSequence m := by
    intro m member
    simp only [sampleMessages,mem_cons,not_mem_nil,or_false] at member
    rcases member with rfl | rfl
    · exact ⟨[0x81,0x02],[0x05,0x00],rfl,.inr ⟨[0x02],by decide,by decide,rfl,rfl⟩,by decide⟩
    · exact emptyMessage_sequence
  have some_octets : ∀ chunk ∈ sampleChunks, chunk ≠ [] := by decide
  have part : sampleChunks.flatten <+: sampleMessages.flatten := by decide
  exact (stream_delivered 0 sampleMessages sampleChunks all some_octets part
    (bounded_of_total 0 all (start_waiting all) some_octets part (by decide))).2.2 (by decide)

end NetSnmp.SessRead
