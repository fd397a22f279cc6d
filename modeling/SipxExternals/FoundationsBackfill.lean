import Mathlib.Data.List.Basic

namespace Foundations
open List

-- A buffer of `size` octets that is filled from its end. `requests` counts what was asked
-- of the allocator so far.
structure TailBuffer where
  size : Nat
  octets : List UInt8
  requests : Nat

namespace TailBuffer

def offset (buf : TailBuffer) : Nat := buf.octets.length

def empty : TailBuffer := ⟨0,[],0⟩

end TailBuffer

abbrev Heap := Nat → Bool

-- A step of a writer; `none` ends the writer and leaves what was written. A request
-- once made stays on the count.
structure Backfill (α : Type) where
  run : Heap → TailBuffer → Option α × TailBuffer
  forward : ∀ heap buf, buf.requests ≤ (run heap buf).2.requests

namespace Backfill
variable {α β : Type}

def plain (act : TailBuffer → Option α × TailBuffer)
    (keeps : ∀ buf, (act buf).2.requests = buf.requests) : Backfill α :=
  ⟨fun _ buf => act buf,fun _ buf => Nat.le_of_eq (keeps buf).symm⟩

def bindRun (first : Backfill α) (follow : α → Backfill β) (heap : Heap) (buf : TailBuffer) : Option β × TailBuffer :=
  match first.run heap buf with
  | (some value,later) => (follow value).run heap later
  | (none,later) => (none,later)

theorem bindRun_forward (heap : Heap) (buf : TailBuffer) :
    buf.requests ≤ (bindRun first follow heap buf).2.requests := by
  have start := first.forward heap buf
  unfold bindRun
  rcases outcome : first.run heap buf with ⟨_ | value,later⟩
  · simpa [outcome] using start
  · rw [outcome] at start
    exact Nat.le_trans start ((follow value).forward heap later)

theorem ext_run {second : Backfill α} (same : ∀ heap buf, first.run heap buf = second.run heap buf) :
    first = second := by
  obtain ⟨run,forward⟩ := first
  obtain ⟨other,onward⟩ := second
  obtain rfl : run = other := by funext heap buf; exact same heap buf
  rfl

instance : Monad Backfill where
  pure value := plain (fun buf => (some value,buf)) fun _ => rfl
  bind first follow := ⟨bindRun first follow,bindRun_forward⟩

def fail : Backfill α := plain (fun buf => (none,buf)) fun _ => rfl
def offset : Backfill Nat := plain (fun buf => (some buf.offset,buf)) fun _ => rfl
def size : Backfill Nat := plain (fun buf => (some buf.size,buf)) fun _ => rfl

def push (octet : UInt8) : Backfill Unit :=
  plain (fun buf => (some (),{buf with octets:=octet :: buf.octets})) fun _ => rfl

def pushMany (octets : List UInt8) : Backfill Unit :=
  plain (fun buf => (some (),{buf with octets:=octets++buf.octets})) fun _ => rfl

def top : Backfill UInt8 := plain (fun buf => (some (buf.octets.headD 0),buf)) fun _ => rfl

def measured (step : Backfill Unit) : Backfill Nat := do
  let start ← offset
  step
  let now ← offset
  return now-start

def ignore (step : Backfill α) : Backfill Unit :=
  ⟨fun heap buf => (some (),(step.run heap buf).2),step.forward⟩

def enlarge (policy : Nat → Nat) : Backfill Unit where
  run heap buf :=
    (if heap buf.requests then some () else none,
     ⟨if heap buf.requests then policy buf.size else buf.size,buf.octets,buf.requests+1⟩)
  forward _ _ := Nat.le_succ _

-- Ask for more until `need` octets are free. A policy that grows gives at least one
-- octet a round, so that `need` rounds are enough.
def reserveLoop (policy : Nat → Nat) (r : Bool) (need : Nat) : Nat → Backfill Unit
  | 0 => do
    let len ← size
    let used ← offset
    if len-used < need then fail else return ()
  | rounds+1 => do
    let len ← size
    let used ← offset
    if len-used < need then
      if r then do
        enlarge policy
        reserveLoop policy r need rounds
      else fail
    else return ()

def reserve (policy : Nat → Nat) (r : Bool) (need : Nat) : Backfill Unit :=
  reserveLoop policy r need need

def put (policy : Nat → Nat) (r : Bool) (octet : UInt8) : Backfill Unit := do
  reserve policy r 1
  push octet

-- Fails when the buffer is shorter than what it is said to hold.
def demand (length : Nat) : Backfill Unit := do
  let len ← size
  if len < length then fail else return ()

-- No request between two states of the buffer was refused.
def Granted (heap : Heap) (before after : TailBuffer) : Prop :=
  ∀ request, before.requests ≤ request → request < after.requests → heap request = true

-- A step that starts with `need` octets free writes `written` in front, returns
-- `value` and leaves `spare` octets free, unless a request was refused on the way.
def Emits (need spare : Nat) (step : Backfill α) (value : α) (written : List UInt8) : Prop :=
  ∀ heap buf, buf.offset+need ≤ buf.size → Granted heap buf (step.run heap buf).2 →
    ∃ later, step.run heap buf = (some value,later) ∧ later.octets = written++buf.octets ∧
      later.offset+spare ≤ later.size

def output (step : Backfill α) : List UInt8 := (step.run (fun _ => true) .empty).2.octets

theorem granted_always (before after : TailBuffer) : Granted (fun _ => true) before after := fun _ _ _ => rfl

theorem granted_left (bc : b.requests ≤ c.requests) (granted : Granted heap a c) : Granted heap a b :=
  fun request low high => granted request low (Nat.lt_of_lt_of_le high bc)

theorem granted_right (ab : a.requests ≤ b.requests) (granted : Granted heap a c) : Granted heap b c :=
  fun request low high => granted request (Nat.le_trans ab low) high

theorem run_bind : (first >>= follow).run heap buf = bindRun first follow heap buf := rfl

theorem run_bind_some {follow : α → Backfill β} (found : first.run heap buf = (some value,later)) :
    (first >>= follow).run heap buf = (follow value).run heap later := by
  rw [run_bind,bindRun,found]

theorem run_bind_none {follow : α → Backfill β}
    (found : first.run heap buf = (none,later)) : (first >>= follow).run heap buf = (none,later) := by
  rw [run_bind,bindRun,found]

@[simp] theorem run_bind_offset : (offset >>= follow).run heap buf = (follow buf.offset).run heap buf := rfl

@[simp] theorem run_bind_size : (size >>= follow).run heap buf = (follow buf.size).run heap buf := rfl

theorem first_before (first : Backfill α) :
    (first.run heap buf).2.requests ≤ ((first >>= follow).run heap buf).2.requests := by
  rcases outcome : first.run heap buf with ⟨_ | value,later⟩
  · exact Nat.le_of_eq (by rw [run_bind_none outcome])
  · rw [run_bind_some outcome]
    exact (follow value).forward heap later

theorem emits_pure (room : Nat) (value : α) : Emits room room (pure value) value [] :=
  fun _ buf fits _ => ⟨buf,rfl,rfl,fits⟩

theorem emits_bind (head : Emits need middle first value early) (tail : Emits middle spare (follow value) result late) :
    Emits need spare (first >>= follow) result (late++early) := by
  intro heap buf fits granted
  obtain ⟨later,ran,octets,room⟩ :=
    head heap buf fits (granted_left (first_before first) granted)
  rw [run_bind_some ran] at granted ⊢
  have onward : buf.requests ≤ later.requests := by simpa [ran] using first.forward heap buf
  obtain ⟨final,finished,all,left⟩ := tail heap later room (granted_right onward granted)
  exact ⟨final,finished,by rw [all,octets,append_assoc],left⟩

theorem emits_bind_octet
    (head : Emits need middle first value written) (tail : Emits middle spare (follow value) result [octet]) :
    Emits need spare (first >>= follow) result (octet :: written) :=
  emits_bind head tail

theorem emits_bind_silent
    (head : Emits need middle first value written) (tail : Emits middle spare (follow value) result []) :
    Emits need spare (first >>= follow) result written :=
  emits_bind head tail

theorem emits_silent_bind
    (head : Emits need middle first value []) (tail : Emits middle spare (follow value) result written) :
    Emits need spare (first >>= follow) result written := by
  simpa using emits_bind head tail

theorem emits_push (room : Nat) (octet : UInt8) : Emits (room+1) room (push octet) () [octet] := by
  intro heap buf fits _
  refine ⟨_,rfl,rfl,?_⟩
  simp only [TailBuffer.offset,length_cons] at fits ⊢
  omega

theorem emits_spare (less : fewer ≤ spare) (emits : Emits need spare step value written) :
    Emits need fewer step value written := by
  intro heap buf fits granted
  obtain ⟨later,ran,octets,room⟩ := emits heap buf fits granted
  exact ⟨later,ran,octets,by omega⟩

theorem emits_pushMany (room : Nat) : Emits (room+octets.length) room (pushMany octets) () octets := by
  intro heap buf fits _
  refine ⟨_,rfl,rfl,?_⟩
  simp only [TailBuffer.offset,length_append] at fits ⊢
  omega

theorem emits_measured (emits : Emits need spare step () written) :
    Emits need spare (measured step) written.length written := by
  intro heap buf fits granted
  have direct : Granted heap buf (step.run heap buf).2 := by
    refine granted_left ?_ granted
    exact first_before step
  obtain ⟨later,ran,octets,room⟩ := emits heap buf fits direct
  refine ⟨later,?_,octets,room⟩
  have moved : later.offset-buf.offset = written.length := by
    simp [TailBuffer.offset,octets]
  rw [measured,run_bind_offset,run_bind_some ran,← moved]
  rfl

theorem emits_ignore (emits : Emits need spare step value written) : Emits need spare (ignore step) () written := by
  intro heap buf fits granted
  obtain ⟨later,ran,octets,room⟩ := emits heap buf fits granted
  exact ⟨later,by simp [ignore,ran],octets,room⟩

theorem emits_bind_top (late : List UInt8)
    (head : Emits need middle first value (octet :: early)) (tail : Emits middle spare (follow octet) result late) :
    Emits need spare (first >>= fun _ => top >>= follow) result (late++octet :: early) := by
  intro heap buf fits granted
  obtain ⟨later,ran,octets,room⟩ := head heap buf fits (granted_left (first_before _) granted)
  have seen : top.run heap later = (some octet,later) := by
    simp [top,plain,octets]
  rw [run_bind_some ran,run_bind_some seen] at granted ⊢
  have onward : buf.requests ≤ later.requests := by simpa [ran] using first.forward heap buf
  obtain ⟨final,finished,all,left⟩ := tail heap later room (granted_right onward granted)
  exact ⟨final,finished,by rw [all,octets,append_assoc],left⟩

theorem emits_bind_demand {length : α → Nat}
    (head : Emits need spare first value written) (fewer : length value ≤ written.length) :
    Emits need spare (first >>= fun found => demand (length found)) () written := by
  intro heap buf fits granted
  obtain ⟨later,ran,octets,room⟩ := head heap buf fits (granted_left (first_before _) granted)
  refine ⟨later,?_,octets,room⟩
  have short : ¬ later.size < length value := by
    simp only [TailBuffer.offset,octets,length_append] at room
    omega
  rw [run_bind_some ran,demand,run_bind_size,if_neg short]
  rfl

theorem output_eq (emits : Emits 0 spare step value octets) : output step = octets := by
  obtain ⟨later,ran,content,-⟩ := emits (fun _ => true) .empty (Nat.le_refl 0) fun _ _ _ => rfl
  rw [output,ran]
  simp [content,TailBuffer.empty]

theorem output_emits {holds : List UInt8 → Prop}
    (exists_octets : ∃ octets, Emits 0 spare step value octets ∧ holds octets) :
    Emits 0 spare step value (output step) ∧ holds (output step) := by
  obtain ⟨octets,emits,held⟩ := exists_octets
  rw [output_eq emits]
  exact ⟨emits,held⟩

def Fails (step : Backfill α) : Prop := ∀ heap buf, (step.run heap buf).1 = none

theorem fails_bind (follow : α → Backfill β) (fails : Fails first) : Fails (first >>= follow) := by
  intro heap buf
  rcases ran : first.run heap buf with ⟨found,later⟩
  obtain rfl : found = none := by simpa [ran] using fails heap buf
  rw [run_bind_none ran]

theorem fails_after (first : Backfill α) (fails : ∀ value, Fails (follow value)) : Fails (first >>= follow) := by
  intro heap buf
  rcases ran : first.run heap buf with ⟨_ | value,later⟩
  · rw [run_bind_none ran]
  · rw [run_bind_some ran]
    exact fails value heap later

theorem fails_measured (fails : Fails step) : Fails (measured step) :=
  fails_after offset fun _ => fails_bind _ fails

theorem emits_not_fails (emits : Emits 0 spare step value octets) : ¬ Fails step := by
  intro fails
  obtain ⟨later,ran,-⟩ := emits (fun _ => true) .empty (Nat.le_refl 0) fun _ _ _ => rfl
  simpa [ran] using fails (fun _ => true) .empty

theorem bind_assoc (first : Backfill α) :
    (first >>= follow) >>= final = first >>= fun value => follow value >>= final := by
  have same : ∀ heap buf, ((first >>= follow) >>= final).run heap buf =
      (first >>= fun value => follow value >>= final).run heap buf := by
    intro heap buf
    simp only [run_bind,bindRun]
    rcases first.run heap buf with ⟨_ | value,later⟩ <;> rfl
  exact ext_run same

section
variable {policy : Nat → Nat} (grows : ∀ len, len < policy len)
include grows

theorem emits_reserveLoop : ∀ heap buf, need ≤ rounds+(buf.size-buf.offset) → buf.offset ≤ buf.size →
      Granted heap buf ((reserveLoop policy true need rounds).run heap buf).2 →
      ∃ later, (reserveLoop policy true need rounds).run heap buf = (some (),later) ∧
        later.octets = buf.octets ∧ later.offset+need ≤ later.size := by
  induction rounds with
  | zero =>
    intro heap buf enough fits _
    have free : ¬ buf.size-buf.offset < need := by omega
    refine ⟨buf,?_,rfl,by omega⟩
    rw [reserveLoop,run_bind_size,run_bind_offset,if_neg free]
    rfl
  | succ rounds ih =>
    intro heap buf enough fits granted
    rw [reserveLoop,run_bind_size,run_bind_offset] at granted ⊢
    by_cases free : buf.size-buf.offset < need
    · rw [if_pos free] at granted ⊢
      simp only [↓reduceIte] at granted ⊢
      have asked : heap buf.requests = true := by
        refine granted buf.requests (Nat.le_refl _) ?_
        exact Nat.lt_of_lt_of_le (Nat.lt_succ_self _) (first_before (enlarge policy))
      have ran : (enlarge policy).run heap buf = (some (),⟨policy buf.size,buf.octets,buf.requests+1⟩) := by
        simp [enlarge,asked]
      rw [run_bind_some ran] at granted ⊢
      have larger := grows buf.size
      refine ih heap _ ?_ ?_ (granted_right (Nat.le_succ _) granted)
      · simp only [TailBuffer.offset] at *; omega
      · simp only [TailBuffer.offset] at *; omega
    · rw [if_neg free]
      exact ⟨buf,rfl,rfl,by omega⟩

theorem emits_reserve : Emits 0 need (reserve policy true need) () [] := by
  intro heap buf fits granted
  exact emits_reserveLoop grows heap buf (by omega) (by omega) granted

theorem emits_put : Emits 0 0 (put policy true octet) () [octet] :=
  emits_silent_bind (emits_reserve grows) (emits_push 0 octet)

end

end Backfill
end Foundations
