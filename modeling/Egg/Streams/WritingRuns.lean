import Egg.Streams.StringWriting

/-! Runs of a write stream on a string: whatever is written in whatever order is in the contents, as
long as no string has to be widened by an operation that does not do it right. -/
namespace Egg.Streams

open Egg.Data

/-- What can be asked of a stream. -/
inductive Writing where
  | nextPut (token : Nat)
  | nextPutAll (aString : Strings.Text)
  | nextPutChar (aCharacter : Nat)
  | nextPutString (aString : Strings.Text)
  | position (anInteger : Int)
  | setToEnd

namespace Writing

variable (streamClass : StreamClass)

def perform (self : WriteStream) : Writing → Option WriteStream
  | nextPut token => self.nextPut streamClass token
  | nextPutAll aString => self.nextPutAll streamClass (Contents.ofText aString)
  | nextPutChar aCharacter => self.nextPutChar streamClass aCharacter
  | nextPutString aString => self.nextPutString streamClass (Contents.ofText aString)
  | position anInteger => self.atPosition anInteger
  | setToEnd => some self.setToEnd

/-- The same in the model. -/
def performOn (model : Written) : Writing → Written
  | nextPut code | nextPutChar code => model.put code
  | nextPutAll text | nextPutString text => model.putAll text.codes
  | position anInteger => { model with position := anInteger.toNat }
  | setToEnd => { model with position := model.size }

/-- Characters have codes of four bytes, and positions are within bounds. -/
def Admissible (self : WriteStream) : Writing → Prop
  | nextPut code | nextPutChar code => code < 256 ^ 4
  | nextPutAll text | nextPutString text => ∀ code ∈ text.codes, code < 256 ^ 4
  | position anInteger => 0 ≤ anInteger ∧ anInteger ≤ self.limit
  | setToEnd => True

/-- Something wide is put on a stream of narrow contents that is not one of strings, and not by the
operations that make it wide. -/
def Misplaced (self : WriteStream) : Writing → Prop
  | nextPut code => streamClass = .internalWriteStream ∧ ¬ self.isWide ∧ ¬ code < 256
  | nextPutAll text =>
    streamClass = .internalWriteStream ∧ ¬ self.isWide ∧ text.kind = .wideString ∧ text.codes ≠ []
  | _ => False

end Writing

theorem holds_ofText {text : Strings.Text} (fit : ∀ code ∈ text.codes, code < 256 ^ 4) :
    (Contents.ofText text).Holds text.codes := by
  obtain ⟨kind, codes, narrow⟩ := text
  have held (single : kind ≠ .wideString) : Contents.Holds ⟨.string, codes⟩ codes :=
    ⟨(bytesOf_one (narrow single)).symm, narrow single⟩
  cases kind with
  | wideString => exact ⟨rfl, fit⟩
  | string => exact held nofun
  | symbol => exact held nofun

theorem ofText_species (text : Strings.Text) :
    (Contents.ofText text).species = .wideString ↔ text.kind = .wideString := by
  obtain ⟨kind, codes, narrow⟩ := text
  cases kind <;> simp [Contents.ofText]

namespace Tracks

variable {self : WriteStream} {model : Written} {streamClass : StreamClass}

/-- Wide contents take any character. -/
theorem putWide (tracks : Tracks self model) {token : Nat} (wide : self.contents.species = .wideString)
    (fits : token < 256 ^ 4) :
    ∃ next, WriteStream.InternalWriteStream.nextPut self token = some next ∧
      Tracks next (model.put token) := by
  have width : token < 256 ^ self.contents.species.characterSize := by rwa [wide]
  obtain ⟨next, puts, tracked, -⟩ := tracks.nextPut width
  exact ⟨next, puts, tracked⟩

theorem putNarrow (tracks : Tracks self model) {token : Nat} (narrow : token < 256) :
    ∃ next, WriteStream.InternalWriteStream.nextPut self token = some next ∧
      Tracks next (model.put token) := by
  have some_bytes : self.contents.species.characterSize ≠ 0 := by
    cases self.contents.species <;> decide
  have fits := Nat.lt_of_lt_of_le narrow (Nat.le_self_pow some_bytes 256)
  obtain ⟨next, puts, tracked, -⟩ := tracks.nextPut fits
  exact ⟨next, puts, tracked⟩

/-- A character is put, by a stream of strings or where it has room. -/
theorem put (tracks : Tracks self model) {token : Nat} (fits : token < 256 ^ 4)
    (apt : ¬ Writing.Misplaced streamClass self (.nextPut token)) :
    ∃ next, self.nextPut streamClass token = some next ∧ Tracks next (model.put token) := by
  by_cases narrow : token < 256
  · cases streamClass with
    | internalWriteStream => exact tracks.putNarrow narrow
    | writeStringStream =>
      obtain ⟨next, puts, tracked⟩ := tracks.putNarrow narrow
      refine ⟨next, ?_, tracked⟩
      rw [WriteStream.nextPut, WriteStream.WriteStringStream.nextPut, if_pos narrow, puts]
  · cases streamClass with
    | internalWriteStream =>
      have wide : self.contents.species = .wideString := by
        by_contra other
        exact apt ⟨rfl, fun wide => other (of_decide_eq_true wide), narrow⟩
      exact tracks.putWide wide fits
    | writeStringStream =>
      have widened := @Tracks.beWide _ _ .writeStringStream tracks
      obtain ⟨next, puts, tracked⟩ :=
        widened.putWide (@Tracks.beWide_species _ _ .writeStringStream tracks) fits
      refine ⟨next, ?_, tracked⟩
      rw [WriteStream.nextPut, WriteStream.WriteStringStream.nextPut, if_neg narrow]
      exact puts

/-- The characters of a string are put, by a stream of strings or where they have room. -/
theorem putAll (tracks : Tracks self model) {source : Contents} {codes : List Nat}
    (held : source.Holds codes)
    (apt : streamClass = .internalWriteStream → self.contents.species = .wideString ∨
      source.species ≠ .wideString ∨ codes = []) :
    ∃ next, self.nextPutAll streamClass source = some next ∧ Tracks next (model.putAll codes) := by
  cases streamClass with
  | internalWriteStream =>
    obtain ⟨next, puts, tracked, -⟩ := tracks.nextPutAll held (apt rfl)
    exact ⟨next, puts, tracked⟩
  | writeStringStream =>
    rw [WriteStream.nextPutAll, WriteStream.WriteStringStream.nextPutAll]
    by_cases wide : self.contents.species = .wideString
    · by_cases same : source.species = .wideString
      · obtain ⟨next, puts, tracked, -⟩ := tracks.nextPutAll held (.inl wide)
        exact ⟨next, by simp only [wide, same, if_true]; exact puts, tracked⟩
      · obtain ⟨next, puts, tracked, -⟩ := tracks.nextPutAll held.asWideString (.inl wide)
        exact ⟨next, by simp only [wide, same, iff_false, not_true, if_false, if_true]; exact puts, tracked⟩
    · by_cases other : source.species = .wideString
      · have widened := @Tracks.beWide _ _ .writeStringStream tracks
        obtain ⟨next, puts, tracked, -⟩ :=
          widened.nextPutAll held (.inl (@Tracks.beWide_species _ _ .writeStringStream tracks))
        exact ⟨next, by simp only [wide, other, iff_true, if_false]; exact puts, tracked⟩
      · obtain ⟨next, puts, tracked, -⟩ := tracks.nextPutAll held (.inr (.inl other))
        exact ⟨next, by simp only [wide, other, if_true]; exact puts, tracked⟩

theorem wide_of_isWide (wide : self.isWide) : self.contents.species = .wideString :=
  of_decide_eq_true wide

/-- One step: what can be done is done on both sides. -/
theorem perform (tracks : Tracks self model) {writing : Writing}
    (admissible : writing.Admissible self) (apt : ¬ writing.Misplaced streamClass self) :
    ∃ next, writing.perform streamClass self = some next ∧ Tracks next (writing.performOn model) := by
  have wideAfter := @Tracks.beWide_species self model streamClass tracks
  have taken {token : Nat} : ¬ Writing.Misplaced streamClass (self.beWide streamClass) (.nextPut token) :=
    fun misplaced => misplaced.2.1 (decide_eq_true wideAfter)
  cases writing with
  | nextPut token => exact tracks.put admissible apt
  | nextPutAll aString =>
    refine tracks.putAll (holds_ofText admissible) fun class_ => ?_
    by_cases wide : self.contents.species = .wideString
    · exact .inl wide
    · by_cases narrow : aString.kind = .wideString
      · refine .inr (.inr ?_)
        by_contra some_codes
        exact apt ⟨class_, fun isWide => wide (wide_of_isWide isWide), narrow, some_codes⟩
      · exact .inr (.inl fun species => narrow ((ofText_species aString).mp species))
  | nextPutChar aCharacter =>
    rw [Writing.perform, WriteStream.nextPutChar]
    by_cases widens : ¬ self.isWide ∧ ¬ aCharacter < 256
    · rw [if_pos widens]
      exact tracks.beWide.put admissible taken
    · rw [if_neg widens]
      exact tracks.put admissible fun misplaced => widens misplaced.2
  | nextPutString aString =>
    have held := holds_ofText admissible
    rw [Writing.perform, WriteStream.nextPutString]
    by_cases wide : self.isWide
    · rw [if_pos wide]
      exact tracks.putAll held.asWideString fun _ => .inl (wide_of_isWide wide)
    · rw [if_neg wide]
      by_cases other : (Contents.ofText aString).species = .wideString
      · rw [if_pos other]
        exact tracks.beWide.putAll held fun _ => .inl wideAfter
      · rw [if_neg other]
        exact tracks.putAll held fun _ => .inr (.inl other)
  | position anInteger =>
    obtain ⟨positive, inside⟩ := admissible
    refine ⟨{ self with position := anInteger.toNat }, if_pos ⟨positive, inside⟩, ?_⟩
    exact { tracks with
      position := rfl
      positionInside := Int.toNat_le.mpr inside }
  | setToEnd =>
    exact ⟨self.setToEnd, rfl, { tracks with
      position := tracks.size
      positionInside := tracks.sizeInside }⟩

end Tracks

/-- Streams on strings and their models, after any of these operations. -/
inductive Run (streamClass : StreamClass) : WriteStream → Written → Prop
  | on {text : Strings.Text} (fit : ∀ code ∈ text.codes, code < 256 ^ 4) :
    Run streamClass (.on (Contents.ofText text)) (.on text.codes)
  | onAll {text : Strings.Text} (fit : ∀ code ∈ text.codes, code < 256 ^ 4) :
    Run streamClass (.onAll (Contents.ofText text)) (.onAll text.codes)
  | step {self next : WriteStream} {model : Written} {writing : Writing}
    (before : Run streamClass self model) (admissible : writing.Admissible self)
    (apt : ¬ writing.Misplaced streamClass self)
    (performed : writing.perform streamClass self = some next) :
    Run streamClass next (writing.performOn model)

theorem Run.tracks {streamClass : StreamClass} {self : WriteStream} {model : Written}
    (run : Run streamClass self model) : Tracks self model := by
  induction run with
  | on fit => exact Tracks.on (holds_ofText fit)
  | onAll fit => exact Tracks.onAll (holds_ofText fit)
  | step before admissible apt performed tracks =>
    obtain ⟨next, performed', tracked⟩ := tracks.perform admissible apt
    rw [performed] at performed'
    cases performed'
    exact tracked

/-- After every run the contents are the characters written, everything is within bounds, turning
wide keeps the characters, and the next operation is performed. -/
theorem written_of_run (streamClass : StreamClass) (self : WriteStream) (model : Written)
    (run : Run streamClass self model) :
    self.written.characters = model.characters ∧
      (self.position ≤ self.limit ∧ self.size ≤ self.limit ∧ self.limit ≤ self.contents.size) ∧
      (self.beWide streamClass).written.characters = self.written.characters ∧
      ∀ writing : Writing, writing.Admissible self → ¬ writing.Misplaced streamClass self →
        ∃ next, writing.perform streamClass self = some next := by
  have tracks := run.tracks
  refine ⟨tracks.characters, ⟨tracks.positionInside, tracks.sizeInside, tracks.contents_size.ge⟩, ?_, ?_⟩
  · rw [tracks.characters, tracks.beWide.characters]
  · intro writing admissible apt
    obtain ⟨next, performed, -⟩ := tracks.perform admissible apt
    exact ⟨next, performed⟩

/-- A wide string over a narrow one. -/
theorem written_over_narrow :
    WriteStream.written ⟨⟨.wideString, [97, 0, 0, 0, 169, 3, 0, 0, 201, 3, 0, 0]⟩, 3, 3, 3⟩ =
      Contents.ofText ⟨.wideString, [97, 937, 969], nofun⟩ ∧
    (Written.characters <| (Writing.nextPutAll ⟨.wideString, [937, 969], nofun⟩).performOn <|
      (Writing.nextPut 97).performOn (.on [120, 121, 122])) = [97, 937, 969] := by
  have started := @Run.on .writeStringStream ⟨.string, [120, 121, 122], by decide⟩
    (by decide : ∀ code ∈ [120, 121, 122], code < 256 ^ 4)
  have narrow := @Run.step _ _ ⟨⟨.string, [97, 121, 122]⟩, 1, 1, 3⟩ _ (.nextPut 97) started
    (by decide : 97 < 256 ^ 4) nofun (by decide)
  have run := @Run.step _ _ ⟨⟨.wideString, [97, 0, 0, 0, 169, 3, 0, 0, 201, 3, 0, 0]⟩, 3, 3, 3⟩ _
    (.nextPutAll ⟨.wideString, [937, 969], nofun⟩) narrow
    (by decide : ∀ code ∈ [937, 969], code < 256 ^ 4) nofun (by decide)
  have same := (written_of_run _ _ _ run).1
  exact ⟨rfl, same.symm⟩

/-- Its bytes are put at twice the position, not at four times. -/
theorem wide_after_narrow_misplaced :
    ([Writing.nextPut 97, .nextPutAll ⟨.wideString, [937, 969], nofun⟩].foldlM
        (fun self (writing : Writing) => writing.perform .internalWriteStream self)
        (WriteStream.on (Contents.ofText ⟨.string, [], nofun⟩))).map
          (fun self => self.written.characters) ≠
      some (([Writing.nextPut 97, .nextPutAll ⟨.wideString, [937, 969], nofun⟩].foldl
        (fun model (writing : Writing) => writing.performOn model) (Written.on [])).characters) := by
  decide

end Egg.Streams
