import Edgewit.Routes

/-!
# Bulk bodies

A bulk body is made of lines, each with its own ending, and blank lines may stand
anywhere. `bulkEvents_rendered`: the events that `bulk_handler` sends are the pairs that
were rendered.
-/

namespace Edgewit

inductive LineEnding where
  | lf
  | crlf
  deriving DecidableEq, Repr

def LineEnding.chars : LineEnding → List Char
  | .lf => ['\n']
  | .crlf => ['\r', '\n']

/-- A body by its lines, and what comes after the last line ending. -/
structure BodyLines where
  ended : List (List Char × LineEnding)
  rest : List Char
  single : ∀ text ∈ ended.map Prod.fst ++ [rest], '\n' ∉ text

def isBlank (line : List Char) : Bool := line.all isWhitespace

namespace BodyLines

def texts (b : BodyLines) : List (List Char) := b.ended.map Prod.fst ++ [b.rest]

def body (b : BodyLines) : String :=
  String.ofList (b.ended.flatMap (fun l => l.1 ++ l.2.chars) ++ b.rest)

end BodyLines

/-! ## Reading the lines back -/

theorem linesFrom_append {text : List Char} (h : '\n' ∉ text) (line rest : List Char) :
    linesFrom line (text ++ rest) = linesFrom (line ++ text) rest := by
  induction text generalizing line with
  | nil => simp
  | cons c text ih =>
    have hc : c ≠ '\n' := fun heq => h (heq ▸ List.mem_cons_self)
    rw [List.cons_append, linesFrom, if_neg hc, ih fun hmem => h (List.mem_cons_of_mem c hmem),
      List.append_assoc, List.singleton_append]

/-- A line comes back without its ending, and a line feed may take a carriage return along. -/
theorem linesFrom_ended {text : List Char} (h : '\n' ∉ text) (ending : LineEnding)
    (rest : List Char) : ∃ line, linesFrom [] (text ++ ending.chars ++ rest) = line :: linesFrom [] rest ∧
      (line = text ∨ line = stripCr text) := by
  rw [List.append_assoc, linesFrom_append h]
  cases ending with
  | lf => exact ⟨_, rfl, Or.inr rfl⟩
  | crlf =>
    refine ⟨_, rfl, Or.inl ?_⟩
    simp [stripCr]

theorem isBlank_stripCr {text : List Char} (h : isBlank text = true) : isBlank (stripCr text) = true := by
  unfold stripCr
  split
  · rw [isBlank, List.all_eq_true] at h ⊢
    exact fun c hc => h c ((List.dropLast_sublist text).subset hc)
  · exact h

/-- Blank or not, a line that does not end in a carriage return of its own is kept or dropped
as it was written. -/
theorem filter_ended {text line : List Char} (hcr : isBlank text = false → '\r' ∉ text)
    (hline : line = text ∨ line = stripCr text) :
    [line].filter (fun l => !isBlank l) = [text].filter fun l => !isBlank l := by
  rcases hline with rfl | rfl
  · rfl
  cases hblank : isBlank text with
  | true => simp [hblank, isBlank_stripCr hblank]
  | false =>
    have hlast : text.getLast? ≠ some '\r' := fun h => hcr hblank (List.mem_of_getLast? h)
    rw [stripCr, if_neg hlast]

/-- The lines that are not blank come back as they were written. -/
theorem filter_lines (b : BodyLines) (hcr : ∀ text ∈ b.texts, isBlank text = false → '\r' ∉ text) :
    (lines b.body).filter (fun l => !isBlank l) = b.texts.filter fun l => !isBlank l := by
  obtain ⟨ended, rest, hsingle⟩ := b
  simp only [BodyLines.texts] at hcr
  simp only [lines, BodyLines.body, BodyLines.texts, String.toList_ofList]
  induction ended with
  | nil =>
    have hrest := linesFrom_append (hsingle rest (by simp)) [] []
    rw [List.append_nil] at hrest
    rw [List.flatMap_nil, List.nil_append, hrest]
    by_cases hnil : rest = []
    · simp [linesFrom, hnil, isBlank]
    · simp [linesFrom, hnil]
  | cons l ended ih =>
    obtain ⟨line, hlines, hline⟩ := linesFrom_ended (hsingle l.1 (by simp)) l.2
      (ended.flatMap (fun l => l.1 ++ l.2.chars) ++ rest)
    have hhead := filter_ended (hcr l.1 (by simp)) hline
    have htail := ih (fun text htext => hsingle text (List.mem_cons_of_mem _ htext))
      fun text htext => hcr text (List.mem_cons_of_mem _ htext)
    rw [List.flatMap_cons, List.append_assoc, hlines, List.map_cons, List.cons_append,
      List.filter_cons, List.filter_cons]
    simp only [List.filter_cons, List.filter_nil] at hhead
    rw [htail]
    cases hkeep : !isBlank line <;> cases hkeep' : !isBlank l.1 <;> simp_all

/-! ## Pairs of lines -/

/-- The action of one document. -/
def bulkAction (name : String) : Json :=
  .object [("index", .object [("_index", .string name)])]

/-- A text on one line, and not a blank one. -/
structure OneLine (text : String) : Prop where
  nonblank : isBlank text.toList = false
  newline : '\n' ∉ text.toList
  carriageReturn : '\r' ∉ text.toList

/-- What serde_json does with a pair: each value is written on one line, and the action is
read back. -/
structure Externals.Writes (x : Externals) (p : String × Json) : Prop where
  action : OneLine (x.toText (bulkAction p.1))
  document : OneLine (x.toText p.2)
  parses : x.fromSlice (utf8 (x.toText (bulkAction p.1))) = .ok (bulkAction p.1)

/-- The lines of the pairs, in order. -/
def pairLines (x : Externals) (pairs : List (String × Json)) : List (List Char) :=
  pairs.flatMap fun p => [(x.toText (bulkAction p.1)).toList, (x.toText p.2).toList]

/-- The body is the lines of the pairs, with blank lines anywhere. -/
def Renders (x : Externals) (pairs : List (String × Json)) (b : BodyLines) : Prop :=
  b.texts.filter (fun l => !isBlank l) = pairLines x pairs

theorem bulkIndex_action {x : Externals} {p : String × Json} (h : x.Writes p) :
    bulkIndex x (x.toText (bulkAction p.1)).toList = p.1 := by
  rw [bulkIndex, String.ofList_toList, h.parses]
  rfl

theorem bulkEventsOf_pairs {x : Externals} {pairs : List (String × Json)}
    (h : ∀ p ∈ pairs, x.Writes p) :
    bulkEventsOf x (pairLines x pairs) = pairs.map fun p => ⟨p.1, utf8 (x.toText p.2)⟩ := by
  induction pairs with
  | nil => rfl
  | cons p pairs ih =>
    obtain ⟨hp, hpairs⟩ := List.forall_mem_cons.mp h
    have hrest : pairLines x (p :: pairs) = (x.toText (bulkAction p.1)).toList ::
        (x.toText p.2).toList :: pairLines x pairs := rfl
    rw [hrest, bulkEventsOf, bulkIndex_action hp, ih hpairs, String.ofList_toList, List.map_cons]

/-- No line of a rendered body ends in a carriage return of its own, unless it is blank. -/
theorem Renders.carriageReturn {x : Externals} {pairs : List (String × Json)} {b : BodyLines}
    (hbody : Renders x pairs b) (h : ∀ p ∈ pairs, x.Writes p) :
    ∀ text ∈ b.texts, isBlank text = false → '\r' ∉ text := by
  intro text htext hblank
  have hmem : text ∈ pairLines x pairs := by
    rw [← hbody]
    exact List.mem_filter.mpr ⟨htext, by simp [hblank]⟩
  obtain ⟨p, hp, hline⟩ := List.mem_flatMap.mp hmem
  simp only [List.mem_cons, List.not_mem_nil, or_false] at hline
  rcases hline with rfl | rfl
  · exact (h p hp).action.carriageReturn
  · exact (h p hp).document.carriageReturn

theorem bulkEvents_rendered {x : Externals} {pairs : List (String × Json)} {b : BodyLines}
    (hbody : Renders x pairs b) (h : ∀ p ∈ pairs, x.Writes p) :
    bulkEvents x b.body = pairs.map fun p => ⟨p.1, utf8 (x.toText p.2)⟩ := by
  have hlines := filter_lines b (hbody.carriageReturn h)
  rw [hbody] at hlines
  rw [← bulkEventsOf_pairs h, ← hlines]
  rfl

/-! ## The answer -/

/-- An item of the answer. -/
def itemFor (name : String) (status : Nat) : Json :=
  .object [("index", .object
    [("_index", .string name), ("status", .number (.posInt (UInt64.ofNat status)))])]

/-- The status that stands for what came back from the responder of a request. -/
def StatusOf (r : Received) (status : Nat) : Prop :=
  (r = .answer (.ok ()) ∧ status = 201) ∨ (r ≠ .answer (.ok ()) ∧ status = 500)

/-- One item for each pair, in order, with the index of the pair and the status of its own
request. An error is reported exactly when some status is not 201. -/
def AnswersEach (pairs : List (String × Json)) (received : List Received) (response : Response) :
    Prop :=
  ∃ errors items statuses, response = .ok (200, .object
      [("errors", .bool errors), ("items", .array items), ("took", .number (.posInt 1))]) ∧
    List.Forall₂ StatusOf received statuses ∧
    List.Forall₂ (fun item e => item = itemFor e.1.1 e.2) items (pairs.zip statuses) ∧
    items.length = pairs.length ∧ (errors = true ↔ ∃ status ∈ statuses, status ≠ 201)

theorem bulkStatus_statusOf (r : Received) : StatusOf r (bulkStatus r) := by
  rcases r with (e | ⟨⟩) | _ <;> simp [StatusOf, bulkStatus]

theorem bulkResponse_pairs {pairs : List (String × Json)} {events : List IngestEvent}
    {received : List Received} (hevents : events.map IngestEvent.index = pairs.map Prod.fst)
    (hlength : received.length = pairs.length) :
    AnswersEach pairs received (bulkResponse events (some received)) := by
  have hitems : List.zipWith (fun event r => bulkItem event.index r) events received =
      (pairs.zip (received.map bulkStatus)).map fun e => itemFor e.1.1 e.2 := by
    have hnames : List.zipWith (fun event r => bulkItem event.index r) events received =
        List.zipWith bulkItem (events.map IngestEvent.index) received := by
      rw [List.zipWith_map_left]
    rw [hnames, hevents, List.zip_map_right, List.map_map, List.zipWith_map_left,
      List.map_zip_eq_zipWith]
    rfl
  refine ⟨_, _, received.map bulkStatus, rfl, ?_, ?_, ?_, ?_⟩
  · rw [List.forall₂_map_right_iff, List.forall₂_same]
    exact fun r _ => bulkStatus_statusOf r
  · rw [hitems, List.forall₂_map_left_iff, List.forall₂_same]
    exact fun _ _ => rfl
  · rw [hitems, List.length_map, List.length_zip, List.length_map, hlength, Nat.min_self]
  · simp [List.any_eq_true]

/-- A body that renders pairs of an index name and a document, with either line ending and
blank lines anywhere, sends exactly these events in order, and the answer says of every pair
what became of its own request. -/
theorem bulk_pair_by_pair {x : Externals} {pairs : List (String × Json)} {b : BodyLines}
    {received : List Received} (hbody : Renders x pairs b) (hjson : ∀ p ∈ pairs, x.Writes p)
    (hlength : received.length = pairs.length) :
    bulkEvents x b.body = pairs.map (fun p => ⟨p.1, utf8 (x.toText p.2)⟩) ∧
      AnswersEach pairs received (bulkResponse (bulkEvents x b.body) (some received)) := by
  have hevents := bulkEvents_rendered hbody hjson
  refine ⟨hevents, bulkResponse_pairs ?_ hlength⟩
  rw [hevents, List.map_map]
  rfl

/-! ## A body of two pairs -/

/-- The action line of an index whose name needs no escapes. -/
def actionText (name : String) : String :=
  "\x7b\"index\":\x7b\"_index\":\"" ++ name ++ "\"\x7d\x7d"

/-- A reader and a writer of the action line of one index, and of the empty document. -/
def Externals.ofAction (name : String) : Externals where
  toSchemaBuilder := .documented
  fromSlice bytes :=
    if bytes = utf8 (actionText name) then .ok (bulkAction name)
    else .error "expected value at line 1 column 1"
  toText
    | .object [("index", _)] => actionText name
    | _ => "\x7b\x7d"
  documentError _ _ := none
  dates _ _ := []
  lockFailure := "Failed to acquire Lockfile: LockBusy."
  keysSorted := by
    intro bytes obj h
    split at h
    · cases h
      simp
    · cases h

theorem bulk_pair_by_pair_example :
    ∃ b : BodyLines, b.body =
        "\r\n\x7b\"index\":\x7b\"_index\":\"a\"\x7d\x7d\r\n\x7b\x7d\n \n\x7b\"index\":\x7b\"_index\":\"a\"\x7d\x7d\n\x7b\x7d" ∧
      bulkEvents (.ofAction "a") b.body = [⟨"a", utf8 "\x7b\x7d"⟩, ⟨"a", utf8 "\x7b\x7d"⟩] ∧
      AnswersEach [("a", .object []), ("a", .object [])] [.answer (.ok ()), .dropped]
        (bulkResponse (bulkEvents (.ofAction "a") b.body) (some [.answer (.ok ()), .dropped])) := by
  let action := (actionText "a").toList
  let doc := "\x7b\x7d".toList
  let b : BodyLines :=
    ⟨[([], .crlf), (action, .crlf), (doc, .lf), ([' '], .lf), (action, .lf)], doc, by decide⟩
  have hwrites : ∀ p ∈ [("a", Json.object []), ("a", Json.object [])],
      (Externals.ofAction "a").Writes p := by
    intro p hp
    have hsame : p = ("a", .object []) := by simpa using hp
    subst hsame
    exact ⟨⟨by decide, by decide, by decide⟩, ⟨by decide, by decide, by decide⟩, rfl⟩
  have hbody : Renders (.ofAction "a") [("a", .object []), ("a", .object [])] b := by
    unfold Renders
    decide
  exact ⟨b, by decide, bulk_pair_by_pair hbody hwrites rfl⟩

end Edgewit
