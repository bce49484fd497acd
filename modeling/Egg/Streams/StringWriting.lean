import Egg.Streams.HeldCodes

/-! What a write stream on a string holds after each of its operations: the characters of a list model. -/
namespace Egg.Streams

open Egg.Data

/-- Characters at all positions, and where the next one goes; positions not written to have the
characters of the collection the stream was made on, and nulls behind it. -/
structure Written where
  buffer : Nat → Nat
  position : Nat
  size : Nat

namespace Written

/-- A character is overwritten or appended. -/
def put (model : Written) (code : Nat) : Written where
  buffer := fun index => if index = model.position then code else model.buffer index
  position := model.position + 1
  size := max model.size (model.position + 1)

def putAll (model : Written) (codes : List Nat) : Written :=
  codes.foldl put model

/-- The model of a stream on a collection of such codes. -/
def on (codes : List Nat) : Written where
  buffer := fun index => codes.getD index 0
  position := 0
  size := 0

def onAll (codes : List Nat) : Written :=
  { on codes with position := codes.length, size := codes.length }

/-- The characters written so far. -/
def characters (model : Written) : List Nat :=
  (List.range model.size).map model.buffer

variable (model : Written) (codes : List Nat)

theorem putAll_position : (model.putAll codes).position = model.position + codes.length := by
  induction codes generalizing model with
  | nil => rfl
  | cons code codes ih =>
    have rest := ih (model.put code)
    rw [putAll, List.foldl_cons, ← putAll, rest, List.length_cons, put]
    lia

theorem putAll_size (some_codes : codes ≠ []) :
    (model.putAll codes).size = max model.size (model.position + codes.length) := by
  induction codes generalizing model with
  | nil => exact absurd rfl some_codes
  | cons code codes ih =>
    rw [putAll, List.foldl_cons, ← putAll]
    cases codes with
    | nil => rfl
    | cons next codes =>
      have size : (model.put code).size = max model.size (model.position + 1) := rfl
      have position : (model.put code).position = model.position + 1 := rfl
      rw [ih (model.put code) (List.cons_ne_nil next codes), size, position]
      simp only [List.length_cons]
      lia

theorem putAll_buffer (index : Nat) : (model.putAll codes).buffer index =
    if model.position ≤ index ∧ index < model.position + codes.length then
      codes.getD (index - model.position) 0
    else model.buffer index := by
  induction codes generalizing model with
  | nil => rw [if_neg (by rw [List.length_nil]; lia)]; rfl
  | cons code codes ih =>
    have position : (model.put code).position = model.position + 1 := rfl
    have buffer : (model.put code).buffer index =
        if index = model.position then code else model.buffer index := rfl
    rw [putAll, List.foldl_cons, ← putAll, ih (model.put code), position, buffer, List.length_cons]
    by_cases here : index = model.position
    · rw [if_neg (by lia), if_pos here, if_pos (by lia), here, Nat.sub_self, List.getD_cons_zero]
    · rw [if_neg here]
      by_cases inside : model.position + 1 ≤ index ∧ index < model.position + 1 + codes.length
      · have next : index - model.position = index - (model.position + 1) + 1 := by lia
        rw [if_pos inside, if_pos (by lia), next, List.getD_cons_succ]
      · rw [if_neg inside, if_neg (by lia)]

end Written

theorem overwrite_buffer (model : Written) {codes : List Nat} {limit : Nat}
    (room : model.position + codes.length ≤ limit) :
    Contents.overwrite ((List.range limit).map model.buffer) model.position codes =
      (List.range limit).map (model.putAll codes).buffer := by
  have before : (((List.range limit).map model.buffer).take model.position).length =
      model.position := by
    rw [List.length_take, List.length_map, List.length_range, Nat.min_eq_left (by lia)]
  refine List.ext_getElem ?_ fun index inside inside' => ?_
  · simp only [Contents.overwrite, List.length_append, before, List.length_drop, List.length_map,
      List.length_range]
    lia
  · rw [List.length_map, List.length_range] at inside'
    simp only [Contents.overwrite, List.getElem_append, List.length_append, before, List.getElem_take,
      List.getElem_drop, List.getElem_map, List.getElem_range, model.putAll_buffer codes index]
    by_cases early : index < model.position
    · rw [dif_pos (by lia), dif_pos early, if_neg (by lia)]
    · by_cases new : index < model.position + codes.length
      · rw [dif_pos new, dif_neg early, if_pos ⟨Nat.le_of_not_lt early, new⟩,
          List.getD_eq_getElem?_getD, List.getElem?_eq_getElem (by lia), Option.getD_some]
      · have same : model.position + codes.length + (index - (model.position + codes.length)) =
          index := by lia
        rw [dif_neg new, if_neg (by lia), same]

/-- The stream is where the model is, and its contents are the model's buffer. -/
structure Tracks (stream : WriteStream) (model : Written) : Prop where
  holds : stream.contents.Holds ((List.range stream.limit).map model.buffer)
  blank : ∀ index, stream.limit ≤ index → model.buffer index = 0
  position : stream.position = model.position
  size : stream.size = model.size
  positionInside : stream.position ≤ stream.limit
  sizeInside : stream.size ≤ stream.limit

namespace Tracks

variable {self : WriteStream} {model : Written}

theorem on {contents : Contents} {codes : List Nat} (holds : contents.Holds codes) :
    Tracks (WriteStream.on contents) (.on codes) := by
  have limit : (WriteStream.on contents).limit = codes.length := holds.size
  have buffer : (List.range codes.length).map (Written.on codes).buffer = codes := by
    refine List.ext_getElem (by simp) fun index _ inside => ?_
    rw [List.getElem_map, List.getElem_range]
    simp only [Written.on, List.getD_eq_getElem?_getD, List.getElem?_eq_getElem inside,
      Option.getD_some]
  exact {
    holds := by
      rw [limit, buffer]
      exact holds
    blank := fun index past => by
      rw [limit] at past
      simp only [Written.on, List.getD_eq_getElem?_getD, List.getElem?_eq_none past, Option.getD_none]
    position := rfl
    size := rfl
    positionInside := Nat.zero_le _
    sizeInside := Nat.zero_le _ }

theorem onAll {contents : Contents} {codes : List Nat} (holds : contents.Holds codes) :
    Tracks (WriteStream.onAll contents) (.onAll codes) := by
  have tracks := on holds
  exact {
    holds := tracks.holds
    blank := tracks.blank
    position := holds.size
    size := holds.size
    positionInside := Nat.le_refl _
    sizeInside := Nat.le_refl _ }

theorem contents_size (tracks : Tracks self model) : self.contents.size = self.limit := by
  rw [tracks.holds.size, List.length_map, List.length_range]

/-- A stream that grows keeps what it holds. -/
theorem growBy (tracks : Tracks self model) {extra : Nat} (positive : 0 < extra) :
    ∃ grown, self.growBy extra = some grown ∧ Tracks grown model ∧
      grown.limit = self.limit + extra ∧ grown.position = self.position ∧
      grown.contents.species = self.contents.species := by
  have size := tracks.contents_size
  have going : ¬ ((extra : Int) ≤ 0) := by lia
  have fresh := Contents.holds_new self.contents.species (self.contents.size + extra)
  have same : (Contents.new self.contents.species (self.contents.size + extra)).species =
      .wideString ∨ self.contents.species ≠ .wideString := by
    by_cases wide : self.contents.species = .wideString
    · exact .inl wide
    · exact .inr wide
  obtain ⟨collection, copied, species, holds⟩ := @Contents.Holds.replaceFrom _ _ _ _ fresh tracks.holds
    same 0 (by simp only [List.length_map, List.length_range, List.length_replicate]; lia)
  have kept : Contents.overwrite (List.replicate (self.contents.size + extra) 0) 0
      ((List.range self.limit).map model.buffer) =
      (List.range (self.limit + extra)).map model.buffer := by
    have blank : (List.range extra).map (fun index => model.buffer (self.limit + index)) =
        List.replicate extra 0 := by
      rw [List.eq_replicate_iff]
      refine ⟨by rw [List.length_map, List.length_range], fun code member => ?_⟩
      obtain ⟨index, -, rfl⟩ := List.mem_map.mp member
      exact tracks.blank _ (Nat.le_add_right _ _)
    rw [Contents.overwrite, List.take_zero, List.nil_append, List.length_map, List.length_range,
      Nat.zero_add, List.drop_replicate, size, Nat.add_sub_cancel_left, List.range_add, List.map_append,
      List.map_map, ← blank]
    rfl
  have limit : collection.size = self.limit + extra := by
    rw [holds.size, kept, List.length_map, List.length_range]
  have stop : 0 + ((List.range self.limit).map model.buffer).length = self.contents.size := by
    rw [List.length_map, List.length_range, Nat.zero_add, size]
  rw [stop] at copied
  refine ⟨{ self with contents := collection, limit := collection.size }, ?_, ?_, limit, rfl, species⟩
  · rw [WriteStream.growBy, if_neg going, Int.toNat_natCast]
    simp only [Option.bind_eq_bind]
    rw [show (1 : Nat) = 0 + 1 from rfl, copied]
    rfl
  · exact {
      holds := by rw [limit, ← kept]; exact holds
      blank := fun index past => tracks.blank index (by rw [limit] at past; lia)
      position := tracks.position
      size := tracks.size
      positionInside := by
        have inside := tracks.positionInside
        rw [limit]
        lia
      sizeInside := by
        have inside := tracks.sizeInside
        rw [limit]
        lia }

/-- Characters that are put where the stream is. -/
theorem moveTo (tracks : Tracks self model) {codes : List Nat} (some_codes : codes ≠ [])
    (room : self.position + codes.length ≤ self.limit) {contents : Contents}
    (holds : contents.Holds
      (Contents.overwrite ((List.range self.limit).map model.buffer) self.position codes)) :
    Tracks { self.moveTo (self.position + codes.length) with contents } (model.putAll codes) where
  holds := by
    rw [tracks.position] at room holds
    rw [overwrite_buffer model room] at holds
    exact holds
  blank index past := by
    have beyond : self.limit ≤ index := past
    rw [model.putAll_buffer codes index, ← tracks.position, if_neg (by lia)]
    exact tracks.blank index beyond
  position := by
    rw [model.putAll_position codes, ← tracks.position]
    rfl
  size := by
    rw [model.putAll_size codes some_codes, ← tracks.position, ← tracks.size]
    rfl
  positionInside := room
  sizeInside := by
    have inside := tracks.sizeInside
    exact Nat.max_le.mpr ⟨inside, room⟩

/-- Before a character is put, a full stream grows. -/
theorem makeRoom (tracks : Tracks self model) :
    ∃ grown, (self.position + 1 > self.limit → self.grow = some grown) ∧
      (¬ self.position + 1 > self.limit → grown = self) ∧ Tracks grown model ∧
      grown.position = self.position ∧ grown.contents.species = self.contents.species ∧
      self.position + 1 ≤ grown.limit := by
  by_cases full : self.position + 1 > self.limit
  · have positive : 0 < min (max self.contents.size 20) 1000000 := by lia
    obtain ⟨grown, grows, tracked, limit, position, species⟩ := tracks.growBy positive
    have inside := tracks.positionInside
    exact ⟨grown, fun _ => grows, fun room => absurd full room, tracked, position, species, by lia⟩
  · exact ⟨self, fun past => absurd past full, fun _ => rfl, tracks, rfl, rfl, by lia⟩

theorem nextPut (tracks : Tracks self model) {token : Nat}
    (fits : token < 256 ^ self.contents.species.characterSize) :
    ∃ next, WriteStream.InternalWriteStream.nextPut self token = some next ∧
      Tracks next (model.put token) ∧ next.contents.species = self.contents.species := by
  obtain ⟨grown, grows, stays, tracked, position, species, room⟩ := tracks.makeRoom
  rw [← species] at fits
  obtain ⟨contents, written, same, holds⟩ := @Contents.Holds.atPut _ _ tracked.holds self.position
    token fits (by rw [List.length_map, List.length_range]; exact room)
  refine ⟨{ grown.moveTo (self.position + 1) with contents }, ?_, ?_, same.trans species⟩
  · by_cases full : self.position + 1 > self.limit
    · simp only [WriteStream.InternalWriteStream.nextPut, if_pos full, grows full,
        Option.bind_eq_bind, Option.bind_some, written]
    · rw [stays full] at written ⊢
      simp only [WriteStream.InternalWriteStream.nextPut, if_neg full, Option.bind_eq_bind,
        Option.bind_some, written]
  · rw [← position] at holds room ⊢
    exact tracked.moveTo (List.cons_ne_nil token []) room holds

/-- Before characters are put, the stream grows unless all of them have room. -/
theorem makeRoomFor (tracks : Tracks self model) (count : Nat) :
    ∃ grown, ((count : Int) - (self.limit - self.position) > 0 →
        self.growAtLeast (count - (self.limit - self.position)) = some grown) ∧
      (¬ (count : Int) - (self.limit - self.position) > 0 → grown = self) ∧ Tracks grown model ∧
      grown.position = self.position ∧ grown.contents.species = self.contents.species ∧
      self.position + count ≤ grown.limit := by
  have inside := tracks.positionInside
  by_cases full : (count : Int) - (self.limit - self.position) > 0
  · obtain ⟨extra, more⟩ := Int.eq_ofNat_of_zero_le (Int.le_of_lt full)
    have positive : 0 < max (self.contents.size * 2) extra + 10 := Nat.succ_pos _
    obtain ⟨grown, grows, tracked, limit, position, species⟩ := tracks.growBy positive
    refine ⟨grown, fun _ => ?_, fun room => absurd full room, tracked, position, species, by lia⟩
    rw [WriteStream.growAtLeast, more, ← grows]
    congr 1
    lia
  · exact ⟨self, fun past => absurd past full, fun _ => rfl, tracks, rfl, rfl, by lia⟩

/-- The characters of a string that does not have to be widened in place. -/
theorem nextPutAll (tracks : Tracks self model) {aCollection : Contents} {codes : List Nat}
    (held : aCollection.Holds codes)
    (room : self.contents.species = .wideString ∨ aCollection.species ≠ .wideString ∨ codes = []) :
    ∃ next, WriteStream.InternalWriteStream.nextPutAll self aCollection = some next ∧
      Tracks next (model.putAll codes) ∧ next.contents.species = self.contents.species := by
  have size := held.size
  by_cases empty : codes = []
  · subst empty
    have empty : aCollection.size = 0 := size
    refine ⟨self, ?_, tracks, rfl⟩
    simp only [WriteStream.InternalWriteStream.nextPutAll, if_pos empty]
  have same : self.contents.species = .wideString ∨ aCollection.species ≠ .wideString :=
    room.imp_right fun other => other.resolve_right empty
  have going : aCollection.size ≠ 0 := by
    rw [size]
    exact fun length => empty (List.length_eq_zero_iff.mp length)
  obtain ⟨grown, grows, stays, tracked, position, species, room⟩ :=
    tracks.makeRoomFor aCollection.size
  rw [← species] at same
  have narrow : ¬ (grown.contents.species = .string ∧ aCollection.species = .wideString) := by
    rintro ⟨narrow, wide⟩
    rcases same with wide' | narrow'
    · rw [narrow] at wide'
      cases wide'
    · exact narrow' wide
  rw [size] at room
  obtain ⟨contents, written, same', holds⟩ := @Contents.Holds.replaceFrom _ _ _ _ tracked.holds held
    same self.position (by rw [List.length_map, List.length_range]; exact room)
  rw [← size] at written
  refine ⟨{ grown.moveTo (self.position + codes.length) with contents }, ?_, ?_, same'.trans species⟩
  · rw [← size]
    by_cases full : (aCollection.size : Int) - (self.limit - self.position) > 0
    · simp only [WriteStream.InternalWriteStream.nextPutAll, if_neg going, if_pos full, grows full,
        Option.bind_eq_bind, Option.bind_some, if_neg narrow, position, written]
    · rw [stays full] at written narrow ⊢
      simp only [WriteStream.InternalWriteStream.nextPutAll, if_neg going, if_neg full,
        Option.bind_eq_bind, Option.bind_some, if_neg narrow, written]
  · rw [← position] at holds room ⊢
    exact tracked.moveTo empty room holds

variable {streamClass : StreamClass}

theorem wide_limit (tracks : Tracks self model) : self.contents.asWideString.size = self.limit := by
  rw [tracks.holds.asWideString.size, List.length_map, List.length_range]

theorem beWide_eq (tracks : Tracks self model) :
    self.beWide streamClass = { self with contents := self.contents.asWideString } := by
  have widened : WriteStream.InternalWriteStream.beWide self =
      { self with contents := self.contents.asWideString } := by
    rw [WriteStream.InternalWriteStream.beWide]
    split
    · next wide =>
      rw [Contents.asWideString.eq_def, of_decide_eq_true wide]
    · rfl
  cases streamClass with
  | internalWriteStream => exact widened
  | writeStringStream =>
    rw [WriteStream.beWide, WriteStream.WriteStringStream.beWide, widened]
    simp only [tracks.wide_limit]

/-- A stream that is made wide keeps what it holds. -/
theorem beWide (tracks : Tracks self model) : Tracks (self.beWide streamClass) model := by
  rw [tracks.beWide_eq]
  exact { tracks with holds := tracks.holds.asWideString }

theorem beWide_species (tracks : Tracks self model) :
    (self.beWide streamClass).contents.species = .wideString := by
  rw [tracks.beWide_eq]
  exact Contents.asWideString_species self.contents

theorem beWide_limit (tracks : Tracks self model) : (self.beWide streamClass).limit = self.limit := by
  rw [tracks.beWide_eq]

/-- What has been written is the model's characters. -/
theorem written (tracks : Tracks self model) : self.written.Holds model.characters := by
  have inside := tracks.sizeInside
  have holds := tracks.holds.copyTo self.size
  rw [← List.map_take, List.take_range, Nat.min_eq_left inside] at holds
  rwa [WriteStream.written, Written.characters, ← tracks.size]

theorem characters (tracks : Tracks self model) : self.written.characters = model.characters :=
  tracks.written.characters

end Tracks

end Egg.Streams
