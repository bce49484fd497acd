import Mathlib.Algebra.GroupWithZero.Nat
import Mathlib.Algebra.Group.Int.Defs
import Mathlib.Tactic.Common

/-! Readers of byte streams: what they read back and how much they take. -/
namespace Egg.Data

/-- Read a value from the front of a stream, or fail. -/
def Reader (α : Type) : Type :=
  List UInt8 → Option (α × List UInt8)

namespace Reader

variable {α β γ : Type}

instance : Monad Reader where
  pure value := fun bytes => some (value, bytes)
  bind reader next := fun bytes =>
    match reader bytes with
    | none => none
    | some (value, rest) => next value rest

def fail : Reader α := fun _ => none

def byte : Reader UInt8
  | [] => none
  | first :: rest => some (first, rest)

def ofOption : Option α → Reader α
  | some value => pure value
  | none => fail

/-- Read a value the given number of times. -/
def times (reader : Reader α) : Nat → Reader (List α)
  | 0 => pure []
  | count + 1 => do
    let first ← reader
    let others ← times reader count
    pure (first :: others)

theorem pure_apply (value : α) (bytes : List UInt8) :
    (pure value : Reader α) bytes = some (value, bytes) := rfl

theorem bind_eq_some {reader : Reader α} {next : α → Reader β} {bytes rest : List UInt8}
    {value : β} : (reader >>= next) bytes = some (value, rest) ↔
      ∃ first middle, reader bytes = some (first, middle) ∧
        next first middle = some (value, rest) := by
  show (match reader bytes with
    | none => none
    | some (value, rest) => next value rest) = some (value, rest) ↔ _
  cases read : reader bytes with
  | none => simp
  | some result =>
    obtain ⟨first, middle⟩ := result
    simp

/-- The reader reads the value from these bytes, whatever follows them. -/
def Reads (reader : Reader α) (bytes : List UInt8) (value : α) : Prop :=
  ∀ rest, reader (bytes ++ rest) = some (value, rest)

theorem reads_pure (value : α) : Reads (pure value) [] value :=
  fun _ => rfl

theorem reads_byte (first : UInt8) : Reads byte [first] first :=
  fun _ => rfl

theorem reads_ofOption {value : α} {found : Option α} (present : found = some value) :
    Reads (ofOption found) [] value := by
  rw [present]
  exact reads_pure value

theorem Reads.bind {reader : Reader α} {next : α → Reader β} {bytes more : List UInt8}
    {first : α} {value : β} (head : Reads reader bytes first)
    (tail : Reads (next first) more value) : Reads (reader >>= next) (bytes ++ more) value := by
  intro rest
  rw [List.append_assoc, bind_eq_some]
  exact ⟨first, more ++ rest, head _, tail rest⟩

/-- A reader that looks something up before it goes on takes what follows. -/
theorem Reads.next {reader : Reader α} {next : α → Reader β} {more : List UInt8} {first : α}
    {value : β} (head : Reads reader [] first) (tail : Reads (next first) more value) :
    Reads (reader >>= next) more value :=
  head.bind tail

/-- A reader that only computes on what it has read takes no further bytes. -/
theorem Reads.map {reader : Reader α} {bytes : List UInt8} {first : α} (head : Reads reader bytes first)
    (f : α → β) : Reads (reader >>= fun value => pure (f value)) bytes (f first) := by
  have taken : Reads (reader >>= fun value => pure (f value)) (bytes ++ []) (f first) :=
    head.bind (reads_pure (f first))
  rwa [List.append_nil] at taken

theorem Reads.cons {reader : Reader α} {bytes more : List UInt8} {count : Nat} {first : α}
    {others : List α} (head : Reads reader bytes first)
    (tail : Reads (reader.times count) more others) :
    Reads (reader.times (count + 1)) (bytes ++ more) (first :: others) :=
  head.bind (tail.map (first :: ·))

theorem Reads.once {reader : Reader α} {bytes : List UInt8} {value : α}
    (head : Reads reader bytes value) : Reads (reader.times 1) bytes [value] :=
  head.map (fun value => [value])

theorem reads_bytes (bytes : List UInt8) : Reads (byte.times bytes.length) bytes bytes := by
  induction bytes with
  | nil => exact reads_pure []
  | cons first others ih => exact (reads_byte first).cons ih

theorem Reads.times {reader : Reader β} {encode : α → List UInt8} {decoded : α → β}
    {items : List α} (each : ∀ item ∈ items, Reads reader (encode item) (decoded item)) :
    Reads (reader.times items.length) (items.flatMap encode) (items.map decoded) := by
  induction items with
  | nil => exact reads_pure []
  | cons item items ih =>
    have head := each item (List.mem_cons_self ..)
    have tail := ih fun other member => each other (List.mem_cons_of_mem _ member)
    exact head.cons tail

/-- Whatever the reader reads satisfies the condition, and its width is at most what has been
spent before and what the reader takes of the stream. -/
def Delivers (spent : Nat) (reader : Reader α) (holds : α → Prop) (width : α → Nat) : Prop :=
  ∀ bytes value rest, reader bytes = some (value, rest) →
    holds value ∧ width value + rest.length ≤ spent + bytes.length

variable {holds : α → Prop} {width : α → Nat} {spent : Nat}

theorem delivers_pure {value : α} (sound : holds value) (paid : width value ≤ spent) :
    Delivers spent (pure value) holds width := by
  intro bytes other rest read
  obtain ⟨rfl, rfl⟩ : value = other ∧ bytes = rest := by
    simpa [pure_apply] using read
  exact ⟨sound, by omega⟩

theorem delivers_fail : Delivers spent fail holds width := by
  intro bytes value rest read
  cases read

theorem delivers_byte : Delivers 0 byte (fun _ => True) (fun _ => 1) := by
  intro bytes value rest read
  cases bytes with
  | nil => cases read
  | cons first others =>
    cases read
    exact ⟨trivial, by simp only [List.length_cons]; omega⟩

theorem delivers_ofOption (found : Option α) :
    Delivers 0 (ofOption found) (fun value => found = some value) (fun _ => 0) := by
  cases found with
  | none => exact delivers_fail
  | some value => exact delivers_pure rfl (Nat.le_refl 0)

theorem Delivers.mono {reader : Reader α} {sound : α → Prop} {total : α → Nat}
    (delivers : Delivers 0 reader holds width)
    (weaker : ∀ value, holds value → sound value ∧ total value ≤ spent + width value) :
    Delivers spent reader sound total := by
  intro bytes value rest read
  obtain ⟨valueHolds, paid⟩ := delivers bytes value rest read
  obtain ⟨valueSound, wider⟩ := weaker value valueHolds
  exact ⟨valueSound, by omega⟩

theorem Delivers.bind {reader : Reader α} {next : α → Reader β} {sound : β → Prop}
    {total : β → Nat} (head : Delivers 0 reader holds width)
    (tail : ∀ first, holds first → Delivers (spent + width first) (next first) sound total) :
    Delivers spent (reader >>= next) sound total := by
  intro bytes value rest read
  obtain ⟨first, middle, front, back⟩ := bind_eq_some.mp read
  obtain ⟨firstHolds, firstPaid⟩ := head bytes first middle front
  obtain ⟨valueHolds, valuePaid⟩ := tail first firstHolds middle value rest back
  exact ⟨valueHolds, by omega⟩

theorem Delivers.times {reader : Reader α} (delivers : Delivers 0 reader holds width)
    (count : Nat) : Delivers 0 (reader.times count)
      (fun items => items.length = count ∧ ∀ item ∈ items, holds item)
      (fun items => (items.map width).sum) := by
  induction count with
  | zero => exact delivers_pure ⟨rfl, by simp⟩ (by simp)
  | succ count ih =>
    refine delivers.bind fun first firstHolds => ih.bind fun others othersHold => ?_
    obtain ⟨length, othersHold⟩ := othersHold
    refine delivers_pure ⟨by rw [List.length_cons, length], ?_⟩ (by simp)
    intro item member
    rcases List.mem_cons.mp member with same | further
    · rw [same]
      exact firstHolds
    · exact othersHold item further

end Reader

end Egg.Data
