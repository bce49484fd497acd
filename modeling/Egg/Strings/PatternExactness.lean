import Egg.Strings.PatternMeaning
import Egg.Strings.SubstringExactness
import Mathlib.Data.List.ModifyLast

/-! Patterns match where they stand: from the first place on, and up to the last. -/
namespace Egg.Strings

open Egg.Data

section Comparisons

variable {token string : MatchToken}

/-- The characters of a token from `low` to `high` stand where the string is shifted so far. -/
def Compared (string token : MatchToken) (shift : Nat → Nat) (low high : Nat) : Prop :=
  ∀ j, low ≤ j → j ≤ high → ∃ code char, elementAt token.string j = some code ∧
    elementAt string.string (shift j) = some char ∧
      (char = code ∨ code = questionMark ∧ true = true)

theorem compared_here {shift : Nat → Nat} {j code char : Nat}
    (here : elementAt token.string j = some code)
    (there : elementAt string.string (shift j) = some char) :
    (char == code || code == questionMark) = true ↔ Compared string token shift j j := by
  rw [Bool.or_eq_true, beq_iff_eq, beq_iff_eq]
  constructor
  · intro same i low high
    obtain rfl := Nat.le_antisymm low high
    exact ⟨code, char, here, there, same.imp_right fun question => ⟨question, rfl⟩⟩
  · intro compared
    obtain ⟨code', char', here', there', same⟩ := compared j (Nat.le_refl j) (Nat.le_refl j)
    rw [here] at here'
    rw [there] at there'
    cases here'
    cases there'
    exact same.imp_right And.left

theorem beginsWithFrom_spec (proper : Proper token) (positive : 1 ≤ string.start)
    (inside : string.start + token.stop ≤ string.string.length + 1) {i : Nat} (starts : 1 ≤ i) :
    ∃ matched, string.beginsWithFrom token i = some matched ∧
      (matched = true ↔ Compared string token (string.start + · - 1) i token.stop) := by
  induction size : token.stop + 1 - i generalizing i with
  | zero =>
    rw [MatchToken.beginsWithFrom, if_neg (by lia)]
    exact ⟨true, rfl, iff_of_true rfl fun j low high => by lia⟩
  | succ size inductionHypothesis =>
    have bounded := proper.bounded
    obtain ⟨code, here⟩ := @elementAt_isSome _ token.string i starts (by lia)
    obtain ⟨char, there⟩ := @elementAt_isSome _ string.string (string.start + i - 1) (by lia)
      (by lia)
    have single := @compared_here token string (string.start + · - 1) i code char here there
    rw [MatchToken.beginsWithFrom, if_pos (by lia)]
    simp only [here, there, Option.bind_eq_bind, Option.bind_some]
    by_cases same : (char == code || code == questionMark) = true
    · rw [if_pos same]
      obtain ⟨matched, rest, iff⟩ := inductionHypothesis (Nat.le_add_left 1 i) (by lia)
      refine ⟨matched, rest, iff.trans ⟨fun each j low high => ?_, fun each j low high =>
        each j (by lia) high⟩⟩
      rcases Nat.eq_or_lt_of_le low with rfl | low
      · exact single.mp same i (Nat.le_refl i) (Nat.le_refl i)
      · exact each j low high
    · rw [if_neg same]
      exact ⟨false, rfl, iff_of_false Bool.false_ne_true fun each =>
        same (single.mpr fun j low high => each j low (by lia))⟩

theorem endsWithFrom_spec (proper : Proper token) (bounded : string.stop ≤ string.string.length)
    (inside : token.stop + 1 ≤ string.stop + token.start) {i : Nat} (ends : i ≤ token.stop) :
    ∃ matched, string.endsWithFrom token i = some matched ∧
      (matched = true ↔ Compared string token (string.stop + · - token.stop) token.start i) := by
  have positive := proper.positive
  induction i with
  | zero =>
    exact ⟨true, rfl, iff_of_true rfl fun j low high => by lia⟩
  | succ i inductionHypothesis =>
    rw [MatchToken.endsWithFrom]
    by_cases within : token.start ≤ i + 1
    · rw [if_pos within]
      have size := proper.bounded
      obtain ⟨code, here⟩ := @elementAt_isSome _ token.string (i + 1) (by lia) (by lia)
      obtain ⟨char, there⟩ := @elementAt_isSome _ string.string
        (string.stop + (i + 1) - token.stop) (by lia) (by lia)
      have single := @compared_here token string (string.stop + · - token.stop) (i + 1) code char
        here there
      simp only [here, there, Option.bind_eq_bind, Option.bind_some]
      by_cases same : (char == code || code == questionMark) = true
      · rw [if_pos same]
        obtain ⟨matched, rest, iff⟩ := inductionHypothesis (by lia)
        refine ⟨matched, rest, iff.trans ⟨fun each j low high => ?_, fun each j low high =>
          each j low (by lia)⟩⟩
        rcases Nat.eq_or_lt_of_le high with rfl | high
        · exact single.mp same (i + 1) (Nat.le_refl _) (Nat.le_refl _)
        · exact each j low (by lia)
      · rw [if_neg same]
        exact ⟨false, rfl, iff_of_false Bool.false_ne_true fun each =>
          same (single.mpr fun j low high => each j (by lia) high)⟩
    · rw [if_neg within]
      exact ⟨true, rfl, iff_of_true rfl fun j low high => by lia⟩

/-- Whether a token of which the string is not too short is at its start. -/
theorem beginsWith_spec (proper : Proper token) (first : token.start = 1)
    (positive : 1 ≤ string.start) (bounded : string.stop ≤ string.string.length)
    (room : string.start + token.asString.length ≤ string.stop + 1) :
    ∃ matched, string.beginsWith token = some matched ∧
      (matched = true ↔ Fits string.string true token.asString string.start) := by
  have size := proper.size
  have nonempty := proper.nonempty
  have inside : string.start + token.stop ≤ string.string.length + 1 := by lia
  obtain ⟨matched, compared, iff⟩ := beginsWithFrom_spec proper positive inside proper.positive
  refine ⟨matched, ?_, iff.trans ?_⟩
  · rw [MatchToken.beginsWith, if_pos, compared]
    rw [MatchToken.length, MatchToken.length]
    lia
  · rw [proper.fits_iff, Compared, first]
    refine forall₃_congr fun j low high => ?_
    rw [show string.start + (j - 1) = string.start + j - 1 by lia]

theorem endsWith_spec (proper : Proper token) (positive : 1 ≤ string.start)
    (bounded : string.stop ≤ string.string.length)
    (room : string.start + token.asString.length ≤ string.stop + 1) :
    ∃ matched, string.endsWith token = some matched ∧ (matched = true ↔
      Fits string.string true token.asString (string.stop + 1 - token.asString.length)) := by
  have size := proper.size
  have nonempty := proper.nonempty
  obtain ⟨matched, compared, iff⟩ := endsWithFrom_spec proper bounded (by lia)
    (Nat.le_refl token.stop)
  refine ⟨matched, ?_, iff.trans ?_⟩
  · rw [MatchToken.endsWith, if_pos, compared]
    rw [MatchToken.length, MatchToken.length]
    lia
  · rw [proper.fits_iff, Compared]
    refine forall₃_congr fun j low high => ?_
    rw [show string.stop + 1 - token.asString.length + (j - token.start) =
      string.stop + j - token.stop by lia]

end Comparisons

section Searches

variable {token : MatchToken} {string : List Nat}

/-- What a search for the first place of a token finds. -/
theorem searchFirst_spec (proper : Proper token) (first : token.start = 1) {stop : Nat}
    (bounded : stop ≤ string.length) (start : Nat) (positive : 1 ≤ start) :
    ∃ k, start ≤ k ∧ (∀ j, start ≤ j → j < k → ¬ Fits string true token.asString j) ∧
      (MatchAlgorithm.searchFirst ⟨string, start, stop⟩ token = some (true, ⟨string, k, stop⟩) ∧
          k + token.asString.length ≤ stop + 1 ∧ Fits string true token.asString k ∨
        MatchAlgorithm.searchFirst ⟨string, start, stop⟩ token = some (false, ⟨string, k, stop⟩) ∧
          stop + 1 < k + token.asString.length) := by
  have size := proper.size_pos
  induction room : stop + 1 - start generalizing start with
  | zero =>
    refine ⟨start, Nat.le_refl _, fun j low high => by lia, .inr ⟨?_, by lia⟩⟩
    rw [MatchAlgorithm.searchFirst, if_neg]
    rw [proper.length_eq, MatchToken.length]
    simp only
    lia
  | succ room inductionHypothesis =>
    rw [MatchAlgorithm.searchFirst]
    by_cases fits : start + token.asString.length ≤ stop + 1
    · obtain ⟨matched, begins, iff⟩ := @beginsWith_spec token ⟨string, start, stop⟩ proper
        first positive bounded fits
      rw [if_pos (by rw [proper.length_eq, MatchToken.length]; simp only; lia), begins]
      simp only [Option.bind_eq_bind, Option.bind_some]
      cases matched with
      | true =>
        exact ⟨start, Nat.le_refl _, fun j low high => by lia,
          .inl ⟨rfl, fits, iff.mp rfl⟩⟩
      | false =>
        obtain ⟨k, later, earlier, found⟩ := inductionHypothesis (start + 1) (by lia) (by lia)
        refine ⟨k, by lia, fun j low high => ?_, by simpa using found⟩
        rcases Nat.eq_or_lt_of_le low with rfl | low
        · exact fun there => Bool.false_ne_true (iff.mpr there)
        · exact earlier j low high
    · rw [if_neg (by rw [proper.length_eq, MatchToken.length]; simp only; lia)]
      exact ⟨start, Nat.le_refl _, fun j low high => by lia, .inr ⟨rfl, by lia⟩⟩

/-- What a search for the last place of a token finds. -/
theorem searchLast_spec (proper : Proper token) {start : Nat} (positive : 1 ≤ start) (high : Nat)
    (stop : Nat) (bounded : stop ≤ string.length) :
    ∃ e, e ≤ stop ∧ (∀ j, e + 1 < j + token.asString.length →
        j + token.asString.length ≤ stop + 1 → start ≤ j → ¬ Fits string true token.asString j) ∧
      (MatchAlgorithm.searchLast ⟨string, start, high⟩ token stop =
            some (true, ⟨string, start, e⟩) ∧ start + token.asString.length ≤ e + 1 ∧
          Fits string true token.asString (e + 1 - token.asString.length) ∨
        MatchAlgorithm.searchLast ⟨string, start, high⟩ token stop =
            some (false, ⟨string, start, e⟩) ∧ e + 1 < start + token.asString.length) := by
  have size := proper.size_pos
  induction stop with
  | zero => exact ⟨0, Nat.le_refl _, fun j low high => by lia, .inr ⟨rfl, by lia⟩⟩
  | succ stop inductionHypothesis =>
    rw [MatchAlgorithm.searchLast]
    by_cases fits : start + token.asString.length ≤ stop + 1 + 1
    · obtain ⟨matched, ends, iff⟩ := @endsWith_spec token ⟨string, start, stop + 1⟩ proper
        positive bounded fits
      rw [if_pos (by rw [proper.length_eq, MatchToken.length]; simp only; lia), ends]
      simp only [Option.bind_eq_bind, Option.bind_some]
      cases matched with
      | true =>
        exact ⟨stop + 1, Nat.le_refl _, fun j low high => by lia, .inl ⟨rfl, fits, iff.mp rfl⟩⟩
      | false =>
        obtain ⟨e, earlier, later, found⟩ := inductionHypothesis (by lia)
        refine ⟨e, by lia, fun j low high from_ => ?_, by simpa using found⟩
        rcases Nat.eq_or_lt_of_le high with same | high
        · intro there
          rw [show j = stop + 1 + 1 - token.asString.length by lia] at there
          exact Bool.false_ne_true (iff.mpr there)
        · exact later j low (by lia) from_
    · rw [if_neg (by rw [proper.length_eq, MatchToken.length]; simp only; lia)]
      exact ⟨stop + 1, Nat.le_refl _, fun j low high => by lia, .inr ⟨rfl, by lia⟩⟩

theorem occursAt_iff_fits {text : List Nat} {k : Nat} :
    OccursAt text string k ↔ Fits string false text k := by
  constructor
  · intro occurs i code there
    have inside := (List.getElem?_eq_some_iff.mp there).1
    obtain ⟨expected, element, here, found, same⟩ := occurs (i + 1) (by lia) (by lia)
    obtain rfl := Option.some.inj (here.symm.trans there)
    exact ⟨element, found, .inl (beq_iff_eq.mp same).symm⟩
  · intro fits i low high
    obtain ⟨i, rfl⟩ := Nat.exists_eq_add_of_le' low
    obtain ⟨char, found, same | ⟨-, impossible⟩⟩ := fits i _ (List.getElem?_eq_getElem high)
    · exact ⟨_, char, List.getElem?_eq_getElem high, found, beq_iff_eq.mpr same.symm⟩
    · cases impossible

/-- What a search behind a star finds; there a question mark is for itself. -/
theorem indexOf_spec (proper : Proper token) {start stop : Nat} (positive : 1 ≤ start)
    (bounded : stop ≤ string.length) :
    ∃ i, MatchToken.indexOf ⟨string, start, stop⟩ token = some i ∧
      (i = 0 ∧ (∀ j, start ≤ j → j + token.asString.length ≤ stop + 1 →
          ¬ Fits string false token.asString j) ∨
        start ≤ i ∧ i + token.asString.length ≤ stop + 1 ∧ Fits string false token.asString i ∧
          ∀ j, start ≤ j → j < i → ¬ Fits string false token.asString j) := by
  have size := proper.size_pos
  obtain ⟨i, found, first⟩ := @indexOfString_first string _ start stop size positive bounded
  refine ⟨i, found, ?_⟩
  cases first with
  | absent nowhere =>
    exact .inl ⟨rfl, fun j low high fits => nowhere j low (by lia) (occursAt_iff_fits.mpr fits)⟩
  | found later inside occurs least =>
    exact .inr ⟨later, by lia, occursAt_iff_fits.mp occurs, fun j low high fits =>
      least j low high (occursAt_iff_fits.mpr fits)⟩

end Searches

section Ranges

/-- Ranges one behind another from a position to another. -/
def Tiles : List MatchedRange → (start stop : Nat) → Prop
  | [], start, stop => start = stop + 1
  | range :: ranges, start, stop =>
    range.x = start ∧ ∃ y, range.y = some y ∧ start ≤ y + 1 ∧ Tiles ranges (y + 1) stop

theorem Tiles.append {first second : List MatchedRange} {start middle stop : Nat}
    (left : Tiles first start middle) (right : Tiles second (middle + 1) stop) :
    Tiles (first ++ second) start stop := by
  induction first generalizing start with
  | nil =>
    obtain rfl : start = middle + 1 := left
    exact right
  | cons range ranges inductionHypothesis =>
    obtain ⟨starts, y, ends, ordered, rest⟩ := left
    exact ⟨starts, y, ends, ordered, inductionHypothesis rest⟩

/-- Ranges that are not empty, one behind another. -/
def Row : List (Nat × Nat) → (start stop : Nat) → Prop
  | [], start, stop => start = stop + 1
  | point :: points, start, stop =>
    point.1 = start ∧ point.1 ≤ point.2 ∧ Row points (point.2 + 1) stop

def pointOf (range : MatchedRange) : Nat × Nat := (range.x, range.y.getD 0)

theorem Tiles.row {ranges : List MatchedRange} {start stop : Nat} (tiles : Tiles ranges start stop) :
    Row ((ranges.map pointOf).filter fun p => p.1 ≤ p.2) start stop := by
  induction ranges generalizing start with
  | nil => exact tiles
  | cons range ranges inductionHypothesis =>
    obtain ⟨rfl, y, ends, ordered, rest⟩ := tiles
    have point : pointOf range = (range.x, y) := by rw [pointOf, ends, Option.getD_some]
    rw [List.map_cons, point]
    by_cases nonempty : range.x ≤ y
    · rw [List.filter_cons_of_pos (by simpa using nonempty)]
      exact ⟨rfl, nonempty, inductionHypothesis rest⟩
    · rw [List.filter_cons_of_neg (by simpa using nonempty),
        show range.x = y + 1 by lia]
      exact inductionHypothesis rest

variable {points : List (Nat × Nat)} {start stop : Nat}

theorem Row.le (row : Row points start stop) : start ≤ stop + 1 := by
  induction points generalizing start with
  | nil => exact Nat.le_of_eq row
  | cons point points inductionHypothesis =>
    obtain ⟨rfl, ordered, rest⟩ := row
    have behind := inductionHypothesis rest
    lia

theorem Row.above (row : Row points start stop) : ∀ point ∈ points, start ≤ point.1 := by
  induction points generalizing start with
  | nil => exact fun _ inside => absurd inside List.not_mem_nil
  | cons point points inductionHypothesis =>
    obtain ⟨rfl, ordered, rest⟩ := row
    intro other inside
    rcases List.mem_cons.mp inside with rfl | inside
    · exact Nat.le_refl _
    · have behind := inductionHypothesis rest other inside
      lia

theorem Row.pairwise (row : Row points start stop) : points.Pairwise fun p q => p.1 < q.1 := by
  induction points generalizing start with
  | nil => exact List.Pairwise.nil
  | cons point points inductionHypothesis =>
    obtain ⟨rfl, ordered, rest⟩ := row
    refine List.Pairwise.cons (fun other inside => ?_) (inductionHypothesis rest)
    have behind := rest.above other inside
    lia

theorem Row.last (row : Row points start stop) {point : Nat × Nat}
    (last : points.getLast? = some point) : point.2 = stop := by
  induction points generalizing start with
  | nil => cases last
  | cons first points inductionHypothesis =>
    obtain ⟨rfl, ordered, rest⟩ := row
    cases points with
    | nil =>
      obtain rfl := Option.some.inj last
      exact Nat.succ.inj rest
    | cons second points =>
      rw [List.getLast?_cons_cons] at last
      exact inductionHypothesis rest last

theorem Row.unique (row : Row points start stop) {p q : Nat × Nat} (left : p ∈ points)
    (right : q ∈ points) (same : p.1 = q.1) : p = q := by
  have apart : points.Pairwise fun p q => p.1 = q.1 → p = q :=
    row.pairwise.imp fun less same => absurd same (Nat.ne_of_lt less)
  have flipped : points.Pairwise (flip fun p q => p.1 = q.1 → p = q) :=
    row.pairwise.imp fun less same => absurd same (Nat.ne_of_gt less)
  exact apart.forall_of_forall_of_flip (fun _ _ _ => rfl) flipped left right same

/-- The sorted ranges of a row that got mixed up are the row. -/
theorem Row.sorted {mixed : List (Nat × Nat)} (row : Row points start stop)
    (same : mixed.Perm points) : (mixed.mergeSort fun p q => p.1 ≤ q.1) = points := by
  have perm := (List.mergeSort_perm mixed fun p q => decide (p.1 ≤ q.1)).trans same
  have increasing := row.pairwise
  have sorted : (mixed.mergeSort fun p q => decide (p.1 ≤ q.1)).Pairwise fun p q => p.1 ≤ q.1 := by
    simpa using @List.pairwise_mergeSort _ (fun p q : Nat × Nat => decide (p.1 ≤ q.1))
      (fun a b c => by simpa using Nat.le_trans) (fun a b => by simpa using Nat.le_total a.1 b.1)
      mixed
  refine List.Perm.eq_of_pairwise ?_ sorted (increasing.imp Nat.le_of_lt) perm
  intro p q left right below above
  exact row.unique (perm.mem_iff.mp left) right (Nat.le_antisymm below above)

theorem Tiles.ended {ranges : List MatchedRange} (tiles : Tiles ranges start stop) :
    ∀ range ∈ ranges, ∃ y, range.y = some y := by
  induction ranges generalizing start with
  | nil => exact fun _ inside => absurd inside List.not_mem_nil
  | cons range ranges inductionHypothesis =>
    obtain ⟨-, y, ends, -, rest⟩ := tiles
    intro other inside
    rcases List.mem_cons.mp inside with rfl | inside
    · exact ⟨y, ends⟩
    · exact inductionHypothesis rest other inside

theorem mapM_points {ranges : List MatchedRange} (ended : ∀ range ∈ ranges, ∃ y, range.y = some y) :
    (ranges.mapM fun range => range.y.map fun y => (range.x, y)) = some (ranges.map pointOf) := by
  induction ranges with
  | nil => rfl
  | cons range ranges inductionHypothesis =>
    obtain ⟨y, ends⟩ := ended range List.mem_cons_self
    have rest := inductionHypothesis fun other inside => ended other (List.mem_cons_of_mem _ inside)
    simp only [List.mapM_cons, rest, ends, Option.map_some, Option.bind_eq_bind, Option.bind_some,
      Option.pure_def, List.map_cons, pointOf, Option.getD_some]

/-- The range of the whole is that from the first to the last position, if there is one. -/
theorem matchRange_tiles {a : MatchAlgorithm} {tiles : List MatchedRange}
    (same : a.ranges.Perm tiles) (tiled : Tiles tiles start stop) :
    a.matchRange = some (if start ≤ stop then some (start, stop) else none) := by
  have row := tiled.row
  have sorted := row.sorted ((same.map pointOf).filter fun p => p.1 ≤ p.2)
  rw [MatchAlgorithm.matchRange, mapM_points fun range inside =>
    tiled.ended range (same.mem_iff.mp inside)]
  simp only [Option.bind_eq_bind, Option.bind_some, sorted]
  rcases whole : (tiles.map pointOf).filter fun p => p.1 ≤ p.2 with _ | ⟨point, points⟩
  · rw [whole] at row ⊢
    rw [if_neg (by rw [Row] at row; lia)]
    rfl
  · rw [whole] at row ⊢
    have last := row.last (List.getLast?_eq_some_getLast (List.cons_ne_nil point points))
    obtain ⟨first, ordered, rest⟩ := row
    have behind := rest.le
    rw [if_pos (by lia), List.getLast?_eq_some_getLast (List.cons_ne_nil point points)]
    simp only [List.head?_cons, Option.bind_some, last, first]

end Ranges

section Runs

variable {string : List Nat}

/-- The rounds of the algorithm. -/
def rounds (fuel : Nat) (a : MatchAlgorithm) : Option MatchAlgorithm :=
  loop (fun a => !a.hasTokens) (fun _ a => a.matchNextToken) fuel a

/-- What rounds end in: the ranges are those before and more, or nothing stands there. -/
def RoundsTo (a : MatchAlgorithm) (stands : Prop) (start stop : Nat) : Prop :=
  ∃ result, Converges (fun fuel => rounds fuel a) result ∧
    (stands ∧ result.hasMatched = true ∧
        (∃ tiles, result.ranges = a.ranges ++ tiles ∧ Tiles tiles start stop) ∨
      ¬ stands ∧ result.hasMatched = false)

theorem rounds_ended {a : MatchAlgorithm} (ended : a.hasTokens = false) :
    Converges (fun fuel => rounds fuel a) a :=
  Converges.loop_done (by rw [ended]; rfl)

theorem rounds_next {a next result : MatchAlgorithm} (going : a.hasTokens = true)
    (step : a.matchNextToken = some next) (rest : Converges (fun fuel => rounds fuel next) result) :
    Converges (fun fuel => rounds fuel a) result :=
  Converges.loop_step (by rw [going]; rfl) ⟨0, fun _ _ => step⟩ rest

/-- Stars and the texts between them: each text is matched where it is first. -/
theorem rounds_inner {middle : List MatchToken} (proper : ∀ token ∈ middle, Proper token)
    {start stop : Nat} (positive : 1 ≤ start) (ordered : start ≤ stop + 1)
    (bounded : stop ≤ string.length) (ranges : List MatchedRange) :
    RoundsTo ⟨⟨string, start, stop⟩, Parts.inner middle, none, ranges⟩
      (Scattered string (middle.map MatchToken.asString) start (stop + 1)) start stop := by
  induction middle generalizing start ranges with
  | nil =>
    refine ⟨⟨⟨string, start, start - 1⟩, [], none, ranges ++ [⟨.star, start, some stop⟩]⟩,
      rounds_next rfl ?_ (rounds_ended rfl), .inl ⟨ordered, rfl, _, rfl, ?_⟩⟩
    · simp [MatchAlgorithm.matchNextToken, Parts.inner, MatchAlgorithm.matchFirstStar,
        MatchAlgorithm.hasTokens, MatchAlgorithm.endLast, List.modifyLast_concat]
    · exact ⟨rfl, stop, rfl, ordered, rfl⟩
  | cons token middle inductionHypothesis =>
    have proper' := proper token List.mem_cons_self
    have size := proper'.size_pos
    obtain ⟨i, found, none | some⟩ := indexOf_spec proper' positive bounded
    · obtain ⟨rfl, nowhere⟩ := none
      have step : (⟨⟨string, start, stop⟩, Parts.inner (token :: middle), none, ranges⟩ :
          MatchAlgorithm).matchNextToken = some (MatchAlgorithm.failBecause
            ⟨⟨string, start, stop⟩, .text token :: Parts.inner middle, none,
              ranges ++ [⟨.star, start, none⟩]⟩ (token.asString ++
                codesOf " not present in inteval [" ++ codesOf (toString start) ++
                  codesOf ", " ++ codesOf (toString stop))) := by
        simp [MatchAlgorithm.matchNextToken, Parts.inner, MatchAlgorithm.matchFirstStar,
          MatchAlgorithm.hasTokens, MatchAlgorithm.matchFirstTokenAfterStar, found]
      refine ⟨_, rounds_next rfl step (rounds_ended rfl), .inr ⟨?_, rfl⟩⟩
      rintro ⟨j, later, fits, rest⟩
      have inside := rest.le
      exact nowhere j later inside fits
    · obtain ⟨later, inside, fits, least⟩ := some
      have length := proper'.length_eq
      have step : (⟨⟨string, start, stop⟩, Parts.inner (token :: middle), none, ranges⟩ :
          MatchAlgorithm).matchNextToken = some
            ⟨⟨string, i + token.asString.length, stop⟩, Parts.inner middle, none,
              ranges ++ [⟨.star, start, some (i - 1)⟩] ++
                [⟨.text token, i, some (i + token.asString.length - 1)⟩]⟩ := by
        have next : ((i : Int) + token.asString.length).toNat = i + token.asString.length := by lia
        have positive' : i ≠ 0 := by lia
        simp [MatchAlgorithm.matchNextToken, Parts.inner, MatchAlgorithm.matchFirstStar,
          MatchAlgorithm.hasTokens, MatchAlgorithm.matchFirstTokenAfterStar, found, positive',
          MatchAlgorithm.endLast, List.modifyLast_concat, length, next]
      have behind : 1 ≤ i + token.asString.length := by lia
      obtain ⟨result, runs, outcome⟩ := inductionHypothesis
        (fun other member => proper other (List.mem_cons_of_mem _ member)) behind inside
        (ranges ++ [⟨.star, start, some (i - 1)⟩] ++
          [⟨.text token, i, some (i + token.asString.length - 1)⟩])
      refine ⟨result, rounds_next rfl step runs, ?_⟩
      rcases outcome with ⟨scattered, matched, tiles, all, tiled⟩ | ⟨nowhere, failed⟩
      · refine .inl ⟨⟨i, later, fits, scattered⟩, matched, ⟨.star, start, some (i - 1)⟩ ::
          ⟨.text token, i, some (i + token.asString.length - 1)⟩ :: tiles, by simp [all],
          rfl, i - 1, rfl, by lia, ?_⟩
        refine ⟨by simp only; lia, _, rfl, by lia, ?_⟩
        rw [show i + token.asString.length - 1 + 1 = i + token.asString.length by lia]
        exact tiled
      · refine .inr ⟨?_, failed⟩
        rintro ⟨j, from_, there, rest⟩
        have before : i ≤ j := by
          by_contra earlier
          exact least j from_ (Nat.lt_of_not_le earlier) there
        exact nowhere (rest.mono (by lia) (Nat.le_refl _))

/-- The text before the first star is matched where it is first, if what is behind it fits there. -/
theorem rounds_first {first : Option MatchToken} {middle : List MatchToken}
    (proper : ∀ token ∈ first, Proper token ∧ token.start = 1)
    (proper' : ∀ token ∈ middle, Proper token) {start stop : Nat} (positive : 1 ≤ start)
    (ordered : start ≤ stop + 1) (bounded : stop ≤ string.length) (ranges : List MatchedRange) :
    ∃ result, Converges (fun fuel => rounds fuel ⟨⟨string, start, stop⟩,
        first.toList.map .text ++ Parts.inner middle, none, ranges⟩) result ∧
      ((∃ a, start ≤ a ∧ Fits string true (Parts.textOf first) a ∧
          Scattered string (middle.map MatchToken.asString)
            (a + (Parts.textOf first).length) (stop + 1) ∧
          (∀ a', start ≤ a' → a' + (Parts.textOf first).length ≤ stop + 1 →
            Fits string true (Parts.textOf first) a' → a ≤ a') ∧
          result.hasMatched = true ∧
            ∃ tiles, result.ranges = ranges ++ tiles ∧ Tiles tiles a stop) ∨
        (∀ a, start ≤ a → Fits string true (Parts.textOf first) a →
          ¬ Scattered string (middle.map MatchToken.asString)
            (a + (Parts.textOf first).length) (stop + 1)) ∧ result.hasMatched = false) := by
  cases first with
  | none =>
    obtain ⟨result, runs, outcome⟩ := rounds_inner proper' positive ordered bounded ranges
    refine ⟨result, runs, outcome.imp ?_ ?_⟩
    · rintro ⟨scattered, matched, tiled⟩
      exact ⟨start, Nat.le_refl _, fits_nil string true start, scattered, fun a later _ _ => later,
        matched, tiled⟩
    · rintro ⟨nowhere, failed⟩
      exact ⟨fun a later _ scattered => nowhere (scattered.mono later (Nat.le_refl _)), failed⟩
  | some token =>
    obtain ⟨proper, starts⟩ := proper token rfl
    have length := proper.length_eq
    have size := proper.size_pos
    obtain ⟨k, later, least, ⟨found, inside, fits⟩ | ⟨missed, short⟩⟩ :=
      searchFirst_spec proper starts bounded start positive
    · have step : (⟨⟨string, start, stop⟩, .text token :: Parts.inner middle, none, ranges⟩ :
          MatchAlgorithm).matchNextToken = some
            ⟨⟨string, k + token.asString.length, stop⟩, Parts.inner middle, none,
              ranges ++ [⟨.text token, k, some (k + token.asString.length - 1)⟩]⟩ := by
        have next : ((k : Int) + token.asString.length).toNat = k + token.asString.length := by lia
        simp [MatchAlgorithm.matchNextToken, MatchAlgorithm.matchFirstToken, found, length, next]
      have behind : 1 ≤ k + token.asString.length := by lia
      obtain ⟨result, runs, outcome⟩ := rounds_inner proper' behind inside bounded
        (ranges ++ [⟨.text token, k, some (k + token.asString.length - 1)⟩])
      have before : ∀ a, start ≤ a → Fits string true token.asString a → k ≤ a := by
        intro a from_ there
        by_contra earlier
        exact least a from_ (Nat.lt_of_not_le earlier) there
      refine ⟨result, rounds_next rfl step runs, outcome.imp ?_ ?_⟩
      · rintro ⟨scattered, matched, tiles, all, tiled⟩
        refine ⟨k, later, fits, scattered, fun a from_ _ there => before a from_ there, matched,
          _ :: tiles, by rw [all, List.append_assoc, List.singleton_append], rfl, _, rfl, by lia, ?_⟩
        rw [show k + token.asString.length - 1 + 1 = k + token.asString.length by lia]
        exact tiled
      · rintro ⟨nowhere, failed⟩
        exact ⟨fun a from_ there scattered => nowhere (scattered.mono
          (Nat.add_le_add_right (before a from_ there) _) (Nat.le_refl _)), failed⟩
    · have step : (⟨⟨string, start, stop⟩, .text token :: Parts.inner middle, none, ranges⟩ :
          MatchAlgorithm).matchNextToken = some (MatchAlgorithm.failBecause
            ⟨⟨string, k, stop⟩, .text token :: Parts.inner middle, none, ranges⟩
              (token.asString ++ codesOf " not present at position " ++ codesOf (toString k))) := by
        simp [MatchAlgorithm.matchNextToken, MatchAlgorithm.matchFirstToken, missed, Parts.inner]
      refine ⟨_, rounds_next rfl step (rounds_ended rfl), .inr ⟨?_, rfl⟩⟩
      intro a from_ there scattered
      have inside := scattered.le
      have room : a + token.asString.length ≤ stop + 1 := inside
      exact least a from_ (by lia) there

theorem inner_getLast? (middle : List MatchToken) :
    (Parts.inner middle).getLast? = some .star := by
  induction middle with
  | nil => rfl
  | cons token middle inductionHypothesis => exact inductionHypothesis

/-- Either the first and the last place of a match are known, or there is no match. -/
def Settles (string : List Nat) (index : Nat) (parts : Parts) (result : MatchAlgorithm) : Prop :=
  (∃ a b, index ≤ a ∧ b ≤ string.length ∧ parts.Stand string true a b ∧
      (∀ a' b', index ≤ a' → b' ≤ string.length → parts.Stand string true a' b' →
        a ≤ a' ∧ b' ≤ b) ∧
      result.hasMatched = true ∧ ∃ tiles, result.ranges.Perm tiles ∧ Tiles tiles a b) ∨
    (∀ a b, index ≤ a → b ≤ string.length → ¬ parts.Stand string true a b) ∧
      result.hasMatched = false

section Starred

variable {first : Option MatchToken} {middle : List MatchToken} {token : MatchToken} {index e : Nat}

/-- A pattern that ends with a star starts with the rounds. -/
theorem run_star : (MatchAlgorithm.reset string index (Parts.tokens ⟨first, middle, none⟩)).run =
    fun fuel => rounds fuel ⟨⟨string, index, string.length⟩,
      first.toList.map .text ++ Parts.inner middle, none, []⟩ := by
  funext fuel
  simp [MatchAlgorithm.run, MatchAlgorithm.reset, Parts.tokens, inner_getLast?, rounds]

theorem tokens_several :
    (first.toList.map Token.text ++ Parts.inner middle ++ [Token.text token]).length ≠ 1 := by
  rw [List.length_append, List.length_append, Parts.inner, List.length_cons,
    List.length_singleton]
  lia

/-- The text behind the last star is taken off before the rounds. -/
theorem run_found (proper : Proper token)
    (found : MatchAlgorithm.searchLast ⟨string, index, string.length⟩ token string.length =
      some (true, ⟨string, index, e⟩)) (room : token.asString.length ≤ e + 1) :
    (MatchAlgorithm.reset string index (Parts.tokens ⟨first, middle, some token⟩)).run =
      fun fuel => rounds fuel ⟨⟨string, index, e - token.asString.length⟩,
        first.toList.map .text ++ Parts.inner middle, none,
        [⟨.text token, e + 1 - token.asString.length, some e⟩]⟩ := by
  have length := proper.length_eq
  have start : ((e : Int) - token.asString.length + 1).toNat = e + 1 - token.asString.length := by
    lia
  have stop : ((e : Int) - token.asString.length).toNat = e - token.asString.length := by lia
  funext fuel
  simp only [MatchAlgorithm.run, MatchAlgorithm.reset, Parts.tokens, Option.toList_some,
    List.map_cons, List.map_nil, ← List.append_assoc, List.getLast?_concat,
    MatchAlgorithm.matchLastToken, MatchAlgorithm.privateMatchLastToken, found, length,
    if_neg tokens_several, Option.bind_eq_bind, Option.bind_some, if_true, start, stop,
    List.dropLast_concat, List.nil_append]
  rfl

/-- Without a place for that text there are no rounds. -/
theorem run_missed
    (missed : MatchAlgorithm.searchLast ⟨string, index, string.length⟩ token string.length =
      some (false, ⟨string, index, e⟩)) :
    ∃ result : MatchAlgorithm, result.hasMatched = false ∧ result.hasTokens = false ∧
      (MatchAlgorithm.reset string index (Parts.tokens ⟨first, middle, some token⟩)).run =
        fun fuel => rounds fuel result := by
  refine ⟨MatchAlgorithm.failBecause ⟨⟨string, index, e⟩,
    first.toList.map .text ++ Parts.inner middle ++ [.text token], none, []⟩
    (token.asString ++ codesOf " not present at position " ++
      codesOf (toString ((e : Int) - token.length + 1))), rfl, rfl, ?_⟩
  funext fuel
  simp only [MatchAlgorithm.run, MatchAlgorithm.reset, Parts.tokens, Option.toList_some,
    List.map_cons, List.map_nil, ← List.append_assoc, List.getLast?_concat,
    MatchAlgorithm.matchLastToken, MatchAlgorithm.privateMatchLastToken, missed,
    if_neg tokens_several, Option.bind_eq_bind, Option.bind_some, Bool.false_eq_true, if_false]
  rfl

theorem run_settles_star (proper : ∀ token ∈ first, Proper token ∧ token.start = 1)
    (proper' : ∀ token ∈ middle, Proper token) (positive : 1 ≤ index)
    (ordered : index ≤ string.length + 1) :
    ∃ result, Converges
        (MatchAlgorithm.reset string index (Parts.tokens ⟨first, middle, none⟩)).run result ∧
      Settles string index ⟨first, middle, none⟩ result := by
  rw [run_star]
  obtain ⟨result, runs, outcome⟩ := rounds_first proper proper' positive ordered
    (Nat.le_refl _) []
  refine ⟨result, runs, outcome.imp ?_ ?_⟩
  · rintro ⟨a, later, fits, scattered, least, matched, tiles, all, tiled⟩
    refine ⟨a, string.length, later, Nat.le_refl _, ⟨fits, _, scattered, fits_nil _ _ _, rfl⟩,
      ?_, matched, tiles, .of_eq all, tiled⟩
    rintro a' b' later' bounded ⟨fits', c, scattered', -, ends⟩
    have inside := scattered'.le
    have position : c = b' + 1 := ends
    exact ⟨least a' later' (by lia) fits', bounded⟩
  · rintro ⟨nowhere, failed⟩
    refine ⟨?_, failed⟩
    rintro a b later bounded ⟨fits, c, scattered, -, ends⟩
    have position : c = b + 1 := ends
    exact nowhere a later fits (scattered.mono (Nat.le_refl _) (by lia))

/-- A match ends with its last text. -/
theorem stand_last_text {a b : Nat}
    (whole : Parts.Stand ⟨first, middle, some token⟩ string true a b) : ∃ c,
      a + (Parts.textOf first).length ≤ c ∧ c + token.asString.length = b + 1 ∧
        Fits string true token.asString c ∧
          Scattered string (middle.map MatchToken.asString)
            (a + (Parts.textOf first).length) c := by
  obtain ⟨-, c, scattered, fits, ends⟩ := whole
  exact ⟨c, scattered.le, ends, fits, scattered⟩

theorem run_settles_text (proper : ∀ token ∈ first, Proper token ∧ token.start = 1)
    (proper' : ∀ token ∈ middle, Proper token) (proper'' : Proper token) (positive : 1 ≤ index) :
    ∃ result, Converges
        (MatchAlgorithm.reset string index (Parts.tokens ⟨first, middle, some token⟩)).run result ∧
      Settles string index ⟨first, middle, some token⟩ result := by
  have size := proper''.size_pos
  obtain ⟨e, below, latest, ⟨found, inside, fits⟩ | ⟨missed, short⟩⟩ :=
    searchLast_spec proper'' positive string.length string.length (Nat.le_refl _)
  · have position : e - token.asString.length + 1 = e + 1 - token.asString.length := by lia
    have room : index ≤ e - token.asString.length + 1 := by lia
    have left : e - token.asString.length ≤ string.length := by lia
    -- No match ends behind the last place of its last text.
    have bound : ∀ {c b}, index ≤ c → b ≤ string.length → c + token.asString.length = b + 1 →
        Fits string true token.asString c → b ≤ e := by
      intro c b later bounded ends there
      by_contra behind
      exact latest c (by lia) (by lia) later there
    rw [run_found proper'' found (by lia)]
    obtain ⟨result, runs, outcome⟩ := rounds_first proper proper' positive room left
      [⟨.text token, e + 1 - token.asString.length, some e⟩]
    rw [position] at outcome
    refine ⟨result, runs, outcome.imp ?_ ?_⟩
    · rintro ⟨a, later, fits', scattered, least, matched, tiles, all, tiled⟩
      have ends : e + 1 - token.asString.length + token.asString.length = e + 1 := by lia
      refine ⟨a, e, later, below, ⟨fits', _, scattered, fits, ends⟩, ?_, matched, tiles ++
        [⟨.text token, e + 1 - token.asString.length, some e⟩], ?_, tiled.append ?_⟩
      · intro a' b' later' bounded whole
        obtain ⟨c, inside', ends', there, -⟩ := stand_last_text whole
        have before := bound (by lia) bounded ends' there
        exact ⟨least a' later' (by lia) whole.1, before⟩
      · rw [all]
        exact List.perm_append_comm
      · rw [position]
        exact ⟨rfl, e, rfl, by lia, rfl⟩
    · rintro ⟨nowhere, failed⟩
      refine ⟨fun a b later bounded whole => ?_, failed⟩
      obtain ⟨c, inside', ends, there, scattered⟩ := stand_last_text whole
      have before := bound (by lia) bounded ends there
      exact nowhere a later whole.1 (scattered.mono (Nat.le_refl _) (by lia))
  · obtain ⟨result, failed, ended, run⟩ :=
      @run_missed string first middle token index e missed
    rw [run]
    refine ⟨result, rounds_ended ended, .inr ⟨fun a b later bounded whole => ?_, failed⟩⟩
    obtain ⟨c, inside', ends, there, -⟩ := stand_last_text whole
    exact latest c (by lia) (by lia) (by lia) there

end Starred

theorem run_settles {parts : Parts} (proper : ∀ token ∈ parts.first, Proper token ∧ token.start = 1)
    (proper' : ∀ token ∈ parts.middle, Proper token) (proper'' : ∀ token ∈ parts.last, Proper token)
    {index : Nat} (positive : 1 ≤ index) (ordered : index ≤ string.length + 1) :
    ∃ result, Converges (MatchAlgorithm.reset string index parts.tokens).run result ∧
      Settles string index parts result := by
  obtain ⟨first, middle, last⟩ := parts
  cases last with
  | none => exact run_settles_star proper proper' positive ordered
  | some token => exact run_settles_text proper proper' (proper'' token rfl) positive

/-- The text of a pattern without stars is matched where it is first. -/
theorem run_plain {token : MatchToken} (proper : Proper token) (starts : token.start = 1)
    {index : Nat} (positive : 1 ≤ index) :
    ∃ result, Converges (MatchAlgorithm.reset string index [.text token]).run result ∧
      ((∃ a, index ≤ a ∧ a + token.asString.length ≤ string.length + 1 ∧
          Fits string true token.asString a ∧
          (∀ a', index ≤ a' → Fits string true token.asString a' → a ≤ a') ∧
          result.hasMatched = true ∧ Tiles result.ranges a (a + token.asString.length - 1)) ∨
        (∀ a, index ≤ a → ¬ Fits string true token.asString a) ∧ result.hasMatched = false) := by
  have length := proper.length_eq
  have size := proper.size_pos
  have run : (MatchAlgorithm.reset string index [.text token]).run = fun fuel =>
      ((MatchAlgorithm.reset string index [.text token]).matchFirstToken token).bind
        (rounds fuel) := rfl
  rw [run]
  obtain ⟨k, later, least, ⟨found, inside, fits⟩ | ⟨missed, short⟩⟩ :=
    searchFirst_spec proper starts (Nat.le_refl string.length) index positive
  · have next : ((k : Int) + token.asString.length).toNat = k + token.asString.length := by lia
    have stop : ((k : Int) + token.asString.length - 1).toNat = k + token.asString.length - 1 := by
      lia
    have step : (MatchAlgorithm.reset string index [.text token]).matchFirstToken token =
        some ⟨⟨string, k + token.asString.length, string.length⟩, [], none,
          [⟨.text token, k, some (k + token.asString.length - 1)⟩]⟩ := by
      simp only [MatchAlgorithm.matchFirstToken, MatchAlgorithm.reset, found, length, next, stop,
        Option.bind_eq_bind, Option.bind_some, if_true, List.nil_append, List.tail_cons]
    rw [step]
    refine ⟨_, rounds_ended rfl, .inl ⟨k, later, inside, fits, fun a from_ there => ?_, rfl, rfl,
      _, rfl, by lia, rfl⟩⟩
    by_contra earlier
    exact least a from_ (Nat.lt_of_not_le earlier) there
  · have nowhere : ∀ a, index ≤ a → ¬ Fits string true token.asString a := by
      intro a from_ there
      have room := there.bounded size
      exact least a from_ (by lia) there
    obtain ⟨e, below, -, ⟨-, room, there⟩ | ⟨missed', short'⟩⟩ :=
      searchLast_spec proper positive string.length string.length (Nat.le_refl _)
    · exact absurd there (nowhere _ (by lia))
    · have step : (MatchAlgorithm.reset string index [.text token]).matchFirstToken token =
          some (MatchAlgorithm.failBecause ⟨⟨string, index, e⟩, [.text token], none, []⟩
            (token.asString ++ codesOf " not present at position " ++
              codesOf (toString ((e : Int) - token.length + 1)))) := by
        simp only [MatchAlgorithm.matchFirstToken, MatchAlgorithm.reset, missed,
          Option.bind_eq_bind, Option.bind_some, Bool.false_eq_true, if_false,
          List.length_singleton, if_true, MatchAlgorithm.privateMatchLastToken,
          List.getLast?_singleton, missed']
      rw [step]
      exact ⟨_, rounds_ended rfl, .inr ⟨nowhere, rfl⟩⟩

end Runs

section Matches

/-- A range is from the first place where something stands in a string to the last, if not only
the first one counts. -/
def Widest (string : List Nat) (index : Nat) (starred : Prop) (stands : Nat → Nat → Prop) :
    Option (Nat × Nat) → Prop
  | none => ∀ a b, index ≤ a → a ≤ b → b ≤ string.length → ¬ stands a b
  | some (start, stop) =>
    (index ≤ start ∧ start ≤ stop ∧ stop ≤ string.length ∧ stands start stop) ∧
      ∀ a b, index ≤ a → a ≤ b → b ≤ string.length → stands a b →
        start ≤ a ∧ (starred → b ≤ stop)

variable {pattern string : List Nat} {index : Nat}

theorem matchIndex_of_run (self : StringPattern) {result : MatchAlgorithm}
    (runs : Converges (MatchAlgorithm.reset string index self.tokens).run result)
    {range : Option (Nat × Nat)}
    (answer : (if result.hasMatched then result.matchRange else some none) = some range) :
    Converges (self.matchIndex string index) range := by
  obtain ⟨bound, runs⟩ := runs
  refine ⟨bound, fun fuel enough => ?_⟩
  simp only [StringPattern.matchIndex, runs fuel enough, Option.bind_eq_bind, Option.bind_some]
  exact answer

theorem matchIndex_starred (starred : asterisk ∈ pattern) (positive : 1 ≤ index)
    (ordered : index ≤ string.length + 1) :
    ∃ range, Converges ((StringPattern.on pattern).matchIndex string index) range ∧
      Widest string index (asterisk ∈ pattern) (fun a b => Stands string b true pattern a)
        range := by
  obtain ⟨parts, scanned⟩ := StringPattern.scanFrom_scanned pattern 0 starred
  obtain ⟨result, runs, outcome⟩ :=
    run_settles scanned.first scanned.middle scanned.last positive ordered
  have means : ∀ a b, Stands string b true pattern a ↔ parts.Stand string true a b :=
    fun a b => scanned.means string b true a
  rw [← scanned.tokens] at runs
  simp only [means]
  rcases outcome with ⟨a, b, later, bounded, stands, widest, matched, tiles, all, tiled⟩ |
    ⟨nowhere, failed⟩
  · refine ⟨_, matchIndex_of_run (StringPattern.on pattern) runs
      ((if_pos matched).trans (matchRange_tiles all tiled)), ?_⟩
    by_cases nonempty : a ≤ b
    · rw [if_pos nonempty]
      exact ⟨⟨later, nonempty, bounded, stands⟩, fun a' b' later' _ bounded' stands' =>
        (widest a' b' later' bounded' stands').imp_right fun before _ => before⟩
    · rw [if_neg nonempty]
      intro a' b' later' ordered' bounded' stands'
      obtain ⟨first, last⟩ := widest a' b' later' bounded' stands'
      lia
  · refine ⟨none, matchIndex_of_run (StringPattern.on pattern) runs
      (if_neg (by rw [failed]; exact Bool.false_ne_true)), ?_⟩
    exact fun a b later _ bounded => nowhere a b later bounded

theorem matchIndex_plain (plain : asterisk ∉ pattern) (positive : 1 ≤ index) :
    ∃ range, Converges ((StringPattern.on pattern).matchIndex string index) range ∧
      Widest string index (asterisk ∈ pattern) (fun a b => Stands string b true pattern a)
        range := by
  simp only [stands_plain plain]
  have scan := @StringPattern.scanFrom_plain pattern 0 plain
  rw [List.drop_zero] at scan
  have here : pattern.drop 0 = pattern ++ [] := (List.append_nil pattern).symm
  by_cases empty : pattern = []
  · have tokens : (StringPattern.on pattern).tokens = [] := by
      rw [StringPattern.on, scan, StringPattern.tokenOf, if_pos empty]
      rfl
    have runs : Converges (MatchAlgorithm.reset string index (StringPattern.on pattern).tokens).run
        (MatchAlgorithm.reset string index []) := by
      rw [tokens]
      exact rounds_ended rfl
    have nothing : (MatchAlgorithm.reset string index []).matchRange = some none := by
      simp [MatchAlgorithm.matchRange, MatchAlgorithm.reset]
    refine ⟨none, matchIndex_of_run _ runs ((if_pos rfl).trans nothing), ?_⟩
    rintro a b later ordered bounded ⟨-, ends⟩
    rw [empty, List.length_nil] at ends
    lia
  · obtain ⟨token, isToken⟩ : ∃ token, StringPattern.tokenOf pattern pattern 0 = some token := by
      rw [StringPattern.tokenOf, if_neg empty]
      exact ⟨_, rfl⟩
    have tokens : (StringPattern.on pattern).tokens = [.text token] := by
      rw [StringPattern.on, scan, isToken]
      rfl
    obtain ⟨proper, starts⟩ := StringPattern.tokenOf_proper here token isToken
    have text : token.asString = pattern := by
      have whole := StringPattern.tokenOf_text here
      rwa [isToken] at whole
    have size := List.length_pos_iff.mpr empty
    obtain ⟨result, runs, outcome⟩ := @run_plain string token proper starts index positive
    rw [← tokens] at runs
    rw [text] at outcome
    rcases outcome with ⟨a, later, room, fits, least, matched, tiled⟩ | ⟨nowhere, failed⟩
    · refine ⟨_, matchIndex_of_run (StringPattern.on pattern) runs
        ((if_pos matched).trans (matchRange_tiles (.refl _) tiled)), ?_⟩
      rw [if_pos (by lia)]
      exact ⟨⟨later, by lia, by lia, fits, by lia⟩, fun a' b' later' _ _ stands =>
        ⟨least a' later' stands.1, fun starred => absurd starred plain⟩⟩
    · refine ⟨none, matchIndex_of_run (StringPattern.on pattern) runs
        (if_neg (by rw [failed]; exact Bool.false_ne_true)), ?_⟩
      exact fun a b later _ _ stands => nowhere a later stands.1

theorem matchIndex_widest (pattern string : List Nat) (index : Nat) (positive : 1 ≤ index)
    (ordered : index ≤ string.length + 1) :
    ∃ range, Converges ((StringPattern.on pattern).matchIndex string index) range ∧
      Widest string index (asterisk ∈ pattern) (fun a b => Stands string b true pattern a)
        range := by
  by_cases starred : asterisk ∈ pattern
  · exact matchIndex_starred starred positive ordered
  · exact matchIndex_plain starred positive

/-- A pattern without asterisks stands in one place only from a position on. -/
theorem stands_unique (plain : asterisk ∉ pattern) {a b c : Nat}
    (one : Stands string b true pattern a) (other : Stands string c true pattern a) : b = c := by
  have first := ((stands_plain plain).mp one).2
  have second := ((stands_plain plain).mp other).2
  lia

/-- The whole string is matched if the pattern stands in it from its first to its last character. -/
theorem matches_of_widest {range : Option (Nat × Nat)}
    (widest : Widest string 1 (asterisk ∈ pattern) (fun a b => Stands string b true pattern a)
      range) :
    (range.any fun range => range.1 == 1 && range.2 == string.length) = true ↔
      string ≠ [] ∧ Stands string string.length true pattern 1 := by
  rw [← List.length_pos_iff]
  constructor
  · intro whole
    obtain ⟨⟨start, stop⟩, rfl, ends⟩ := (Option.any_eq_true _ _).mp whole
    rw [Bool.and_eq_true, beq_iff_eq, beq_iff_eq] at ends
    obtain ⟨rfl, rfl⟩ : start = 1 ∧ stop = string.length := ends
    exact ⟨widest.1.2.1, widest.1.2.2.2⟩
  · rintro ⟨nonempty, stands⟩
    cases range with
    | none => exact absurd stands (widest 1 _ (Nat.le_refl 1) nonempty (Nat.le_refl _))
    | some range =>
      obtain ⟨start, stop⟩ := range
      obtain ⟨⟨positive, ordered, bounded, stands'⟩, most⟩ := widest
      obtain ⟨first, last⟩ := most 1 _ (Nat.le_refl 1) nonempty (Nat.le_refl _) stands
      obtain rfl : start = 1 := Nat.le_antisymm first positive
      have ends : stop = string.length := by
        by_cases starred : asterisk ∈ pattern
        · exact Nat.le_antisymm bounded (last starred)
        · exact stands_unique starred stands' stands
      simp [ends]

/-- A match is from the first place where a pattern stands to the last, and a string is matched
if it is not empty and the pattern stands in the whole of it. -/
theorem match_exact (pattern aString : List Nat) (anInteger : Nat) (positive : 1 ≤ anInteger)
    (ordered : anInteger ≤ aString.length + 1) :
    (∃ range, Converges ((StringPattern.on pattern).matchIndex aString anInteger) range ∧
      Widest aString anInteger (asterisk ∈ pattern)
        (fun start stop => Stands aString stop true pattern start) range) ∧
      ∃ answer, Converges ((StringPattern.on pattern).matches aString) answer ∧
        (answer = true ↔ aString ≠ [] ∧ Stands aString aString.length true pattern 1) := by
  refine ⟨matchIndex_widest pattern aString anInteger positive ordered, ?_⟩
  obtain ⟨range, matched, widest⟩ := matchIndex_widest pattern aString 1 (Nat.le_refl 1)
    (Nat.le_add_left 1 _)
  refine ⟨_, ?_, matches_of_widest widest⟩
  obtain ⟨bound, matched⟩ := matched
  exact ⟨bound, fun fuel enough => by simp [StringPattern.matches, matched fuel enough]⟩

/-- In `axb` the pattern `a*?` is matched. -/
theorem match_exact_axb :
    (∃ range, Converges ((StringPattern.on [97, 42, 63]).matchIndex [97, 120, 98] 1) range ∧
      Widest [97, 120, 98] 1 (asterisk ∈ [97, 42, 63])
        (fun start stop => Stands [97, 120, 98] stop true [97, 42, 63] start) range) ∧
      ∃ answer, Converges ((StringPattern.on [97, 42, 63]).matches [97, 120, 98]) answer ∧
        (answer = true ↔ [97, 120, 98] ≠ [] ∧ Stands [97, 120, 98] 3 true [97, 42, 63] 1) :=
  match_exact [97, 42, 63] [97, 120, 98] 1 (by decide) (by decide)

end Matches

end Egg.Strings
