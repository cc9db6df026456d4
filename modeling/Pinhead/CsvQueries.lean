import Pinhead.CsvRows

/-!
# Rows by the value of a column

The query goes through the records as the decoder does and sets the row of each record that
has the value, at the index of the record. The records it passes over leave gaps. What comes
back is a sequence only if the records with the value come first.
-/
namespace Pinhead.CsvQueries
open ByteStrings LuaJson CsvRows

/-! ## The query -/

/-- The text before the first `=`, and the text behind it. -/
def splitOnce (s : String) : Option (String × String) :=
  match s.toList.dropWhile (· ≠ '=') with
  | [] => none
  | _ :: rest => some (String.ofList (s.toList.takeWhile (· ≠ '=')), String.ofList rest)

/-- The rows are numbered by their records. -/
def csvQuery (csv : Csv) (lua : LuaJit) (text filter : String) : Except String LuaValue := do
  let (col, expected) ← (splitOnce filter).elim (.error "CSV query syntax: column=value") .ok
  let col := trim col
  let expected := trim expected
  let headers ← csvError (csv.headers text)
  let colIdx ← (headers.idxOf? col).elim (.error ("column '" ++ col ++ "' not found in CSV")) .ok
  let rows ← (csv.records text).mapM fun row => do
    let record ← csvError row
    return if record.getD colIdx "" = expected then rowTable headers record else .nil
  return lua.arrayTable rows

/-- A text without blanks at its ends. -/
def Trimmed (s : String) : Prop := trim s = s

instance : DecidablePred Trimmed := fun s => inferInstanceAs (Decidable (trim s = s))

/-- The record has the value in the first column of that name. -/
def Matching (headers : List String) (column value : String) (record : List String) : Prop :=
  record[headers.idxOf column]? = some value

/-- The query takes the record. -/
def Selected (headers : List String) (column value : String) (record : List String) : Prop :=
  record.getD (headers.idxOf column) "" = value

instance (headers : List String) (column value : String) :
    DecidablePred (Matching headers column value) := fun _ => inferInstanceAs (Decidable (_ = _))

instance (headers : List String) (column value : String) :
    DecidablePred (Selected headers column value) := fun _ => inferInstanceAs (Decidable (_ = _))

/-- The query gives the decoded rows of the matching records, as a sequence. -/
def Filters (csv : Csv) (lua : LuaJit) (text : String) (headers : List String)
    (records : List (List String)) (rows : List LuaValue) (column value : String) : Prop :=
  csvQuery csv lua text (column ++ "=" ++ value) =
    .ok (.table (((records.zip rows).filter fun p => Matching headers column value p.1).map
      Prod.snd) [])

/-! ## Tables with gaps -/

theorem filterMap_gaps (vs : List LuaValue) (n : ℕ) :
    ((vs.zipIdx n).filterMap fun e =>
        if e.1.isNil then none else some (LuaKey.integer e.2, e.1)) = [] ↔ ∀ v ∈ vs, v = .nil := by
  induction vs generalizing n with
  | nil => simp
  | cons v vs ih =>
      rw [List.zipIdx_cons, List.filterMap_cons, List.forall_mem_cons]
      cases hv : v.isNil with
      | true => simpa [isNil_eq_true hv] using ih (n + 1)
      | false =>
          have hne : v ≠ .nil := by
            rintro rfl
            cases hv
          simp [hne]

/-- The values at `1, 2, ..` make a sequence without gaps exactly where only nil follows. -/
theorem arrayTable_eq_iff (lua : LuaJit) {vs ws : List LuaValue} (hws : ∀ w ∈ ws, w ≠ .nil) :
    lua.arrayTable vs = .table ws [] ↔ ∃ rest, vs = ws ++ rest ∧ ∀ v ∈ rest, v = .nil := by
  rw [LuaJit.arrayTable]
  constructor
  · intro h
    obtain ⟨hsequence, hfields⟩ := LuaValue.table.inj h
    refine ⟨vs.drop (lua.border vs), ?_, (filterMap_gaps _ _).mp hfields⟩
    rw [← hsequence, List.take_append_drop]
  · rintro ⟨rest, rfl, hrest⟩
    have hborder : lua.border (ws ++ rest) = ws.length := by
      rcases lt_trichotomy (lua.border (ws ++ rest)) ws.length with hlt | heq | hgt
      · have hnil := lua.border_next (ws ++ rest) (by rw [List.length_append]; omega)
        rw [List.getElem?_append_left hlt] at hnil
        exact absurd rfl (hws _ (List.mem_of_getElem? hnil))
      · exact heq
      · obtain ⟨n, hn⟩ := Nat.exists_eq_add_one_of_ne_zero (Nat.ne_zero_of_lt hgt)
        have hlast := lua.border_last (ws ++ rest) n hn
        have hle := lua.border_le (ws ++ rest)
        rw [List.length_append] at hle
        rw [List.getElem?_append_right (by omega)] at hlast
        have hget : n - ws.length < rest.length := by omega
        rw [List.getElem?_eq_getElem hget, hrest _ (List.getElem_mem hget)] at hlast
        exact absurd rfl hlast
    simp only [hborder, List.take_left', List.drop_left']
    rw [(filterMap_gaps _ _).mpr hrest]

/-! ## Selected rows -/

section
variable {α : Type} {p : α → Prop} [DecidablePred p] {f : α → LuaValue}

/-- What is selected comes first if each element in front of a selected one is selected. -/
def Leading (p : α → Prop) (xs : List α) : Prop := xs.Pairwise fun x y => p y → p x

theorem map_leading {xs : List α} (h : Leading p xs) :
    ∃ rest, xs.map (fun x => if p x then f x else .nil) = (xs.filter p).map f ++ rest ∧
      ∀ v ∈ rest, v = .nil := by
  induction xs with
  | nil => exact ⟨[], rfl, fun _ hv => absurd hv List.not_mem_nil⟩
  | cons x xs ih =>
      obtain ⟨hx, hxs⟩ := List.pairwise_cons.mp h
      by_cases hpx : p x
      · obtain ⟨rest, heq, hrest⟩ := ih hxs
        refine ⟨rest, ?_, hrest⟩
        rw [List.map_cons, if_pos hpx, heq, List.filter_cons, if_pos (decide_eq_true hpx)]
        rfl
      · have hnone : ∀ y ∈ x :: xs, ¬ p y := List.forall_mem_cons.mpr
          ⟨hpx, fun y hy hpy => hpx (hx y hy hpy)⟩
        have hfilter : (x :: xs).filter p = [] := List.filter_eq_nil_iff.mpr fun y hy hpy =>
          hnone y hy (of_decide_eq_true hpy)
        refine ⟨(x :: xs).map fun x => if p x then f x else .nil, by rw [hfilter]; rfl,
          fun v hv => ?_⟩
        obtain ⟨y, hy, rfl⟩ := List.mem_map.mp hv
        exact if_neg (hnone y hy)

theorem leading_of_map {xs : List α} (hf : ∀ x, f x ≠ .nil) {ws rest : List LuaValue}
    (h : xs.map (fun x => if p x then f x else .nil) = ws ++ rest) (hws : ∀ w ∈ ws, w ≠ .nil)
    (hrest : ∀ v ∈ rest, v = .nil) : Leading p xs := by
  have hpairs : (ws ++ rest).Pairwise fun v w => w ≠ .nil → v ≠ .nil := by
    refine List.pairwise_append.mpr ⟨?_, ?_, ?_⟩
    · exact List.pairwise_of_forall_mem_list fun v hv _ _ _ => hws v hv
    · exact List.pairwise_of_forall_mem_list fun _ _ w hw hne => absurd (hrest w hw) hne
    · exact fun v hv _ _ _ => hws v hv
  rw [← h, List.pairwise_map] at hpairs
  refine hpairs.imp fun hsel hpy => ?_
  by_contra hpx
  exact hsel (by rw [if_pos hpy]; exact hf _) (if_neg hpx)

theorem filter_map_selected {xs : List α} (hf : ∀ x, f x ≠ .nil) :
    (xs.map fun x => if p x then f x else .nil).filter (fun v => !v.isNil) =
      (xs.filter p).map f := by
  induction xs with
  | nil => rfl
  | cons x xs ih =>
      by_cases hpx : p x
      · rw [List.map_cons, if_pos hpx, List.filter_cons, LuaValue.isNil_eq_false (hf x), ih,
          List.filter_cons, if_pos (decide_eq_true hpx)]
        rfl
      · rw [List.map_cons, if_neg hpx, List.filter_cons, List.filter_cons,
          if_neg (mt of_decide_eq_true hpx), ih]
        rfl

theorem rows_of_map {xs : List α} (hf : ∀ x, f x ≠ .nil) {ws rest : List LuaValue}
    (h : xs.map (fun x => if p x then f x else .nil) = ws ++ rest) (hws : ∀ w ∈ ws, w ≠ .nil)
    (hrest : ∀ v ∈ rest, v = .nil) : ws = (xs.filter p).map f := by
  have hkeep : ws.filter (fun v => !v.isNil) = ws := List.filter_eq_self.mpr fun w hw =>
    Bool.not_eq_true' _ ▸ LuaValue.isNil_eq_false (hws w hw)
  have hdrop : rest.filter (fun v => !v.isNil) = [] := List.filter_eq_nil_iff.mpr fun v hv => by
    rw [hrest v hv]
    exact Bool.false_ne_true
  rw [← filter_map_selected hf, h, List.filter_append, hkeep, hdrop, List.append_nil]

end

/-! ## Queries of texts that decode -/

section
variable {csv : Csv} {lua : LuaJit} {text : String} {headers : List String}
  {records : List (List String)} {column value : String}

/-- The decoder takes the text apart into its header and records and gives the rows. -/
structure Decodes (csv : Csv) (lua : LuaJit) (text : String) (headers : List String)
    (records : List (List String)) (rows : List LuaValue) : Prop where
  headers : csv.headers text = .ok headers
  records : csv.records text = records.map .ok
  rows : csvDecode csv lua text = .ok (.table rows [])

theorem csvDecode_eq (hheaders : csv.headers text = .ok headers)
    (hrecords : csv.records text = records.map .ok) :
    csvDecode csv lua text = .ok (.table (records.map (rowTable headers)) []) := by
  rw [csvDecode, hheaders, csvError_bind, hrecords, mapM_records, ok_bind]
  refine congrArg Except.ok (lua.arrayTable_eq fun v hv => ?_)
  obtain ⟨row, -, rfl⟩ := List.mem_map.mp hv
  exact LuaValue.noConfusion

theorem csvError_ok {α : Type} {r : Except String α} {a : α} (h : csvError r = .ok a) :
    r = .ok a := by
  cases r with
  | ok b => exact congrArg Except.ok (Except.ok.inj h)
  | error e => cases h

theorem mapM_records_ok {found : List (Except String (List String))} {rows : List LuaValue}
    (h : (found.mapM fun row => do
      let record ← csvError row
      return rowTable headers record) = .ok rows) :
    ∃ records : List (List String), found = records.map .ok := by
  induction found generalizing rows with
  | nil => exact ⟨[], rfl⟩
  | cons row found ih =>
      rw [List.mapM_cons] at h
      obtain ⟨first, hfirst, h⟩ := bind_ok.mp h
      obtain ⟨rest, hrest, -⟩ := bind_ok.mp h
      obtain ⟨record, hrecord, -⟩ := bind_ok.mp hfirst
      obtain ⟨records, rfl⟩ := ih hrest
      exact ⟨record :: records, by rw [csvError_ok hrecord, List.map_cons]⟩

theorem decodes_of_ok {v : LuaValue} (h : csvDecode csv lua text = .ok v) :
    ∃ headers records rows, Decodes csv lua text headers records rows ∧ v = .table rows [] := by
  have hdecode := h
  obtain ⟨headers, hheaders, h⟩ := bind_ok.mp h
  obtain ⟨rows, hrows, -⟩ := bind_ok.mp h
  obtain ⟨records, hrecords⟩ := mapM_records_ok hrows
  have hdecoded := @csvDecode_eq csv lua text headers records (csvError_ok hheaders) hrecords
  refine ⟨headers, records, _, ⟨csvError_ok hheaders, hrecords, hdecoded⟩, ?_⟩
  exact Except.ok.inj (hdecode.symm.trans hdecoded)

theorem Decodes.eq_rows {rows : List LuaValue} (h : Decodes csv lua text headers records rows) :
    rows = records.map (rowTable headers) :=
  (LuaValue.table.inj (Except.ok.inj (h.rows.symm.trans (csvDecode_eq h.headers h.records)))).1

theorem splitOnce_eq (hcolumn : '=' ∉ column.toList) :
    splitOnce (column ++ "=" ++ value) = some (column, value) := by
  have hbefore : ∀ c ∈ column.toList, decide (c ≠ '=') = true := fun c hc =>
    decide_eq_true fun heq => hcolumn (heq ▸ hc)
  have htext : (column ++ "=" ++ value).toList = column.toList ++ '=' :: value.toList := by
    rw [String.toList_append, String.toList_append, List.append_assoc]
    rfl
  rw [splitOnce, htext, List.dropWhile_append_of_pos hbefore, List.takeWhile_append_of_pos hbefore]
  simp

theorem mapM_selected :
    ((records.map .ok : List (Except String (List String))).mapM fun row => do
      let record ← csvError row
      return if record.getD (headers.idxOf column) "" = value then rowTable headers record
        else .nil) = .ok (records.map fun record =>
          if Selected headers column value record then rowTable headers record else .nil) := by
  induction records with
  | nil => rfl
  | cons record records ih =>
      rw [List.map_cons, List.mapM_cons, ih]
      rfl

theorem csvQuery_eq (hheaders : csv.headers text = .ok headers)
    (hrecords : csv.records text = records.map .ok) (hcolumn : column ∈ headers)
    (hequals : '=' ∉ column.toList) (htrimmed : Trimmed column) (hvalue : Trimmed value) :
    csvQuery csv lua text (column ++ "=" ++ value) = .ok (lua.arrayTable (records.map fun record =>
      if Selected headers column value record then rowTable headers record else .nil)) := by
  rw [csvQuery, splitOnce_eq hequals, Option.elim_some, ok_bind]
  dsimp only
  rw [htrimmed, hvalue, hheaders, csvError_bind, idxOf?_of_mem hcolumn, Option.elim_some, ok_bind,
    hrecords, mapM_selected, ok_bind]
  rfl

theorem filter_zip_map {α : Type} (p : α → Prop) [DecidablePred p] (f : α → LuaValue)
    (xs : List α) :
    ((xs.zip (xs.map f)).filter fun e => p e.1).map Prod.snd = (xs.filter p).map f := by
  induction xs with
  | nil => rfl
  | cons x xs ih =>
      rw [List.map_cons, List.zip_cons_cons, List.filter_cons, List.filter_cons]
      split
      · rw [List.map_cons, List.map_cons, ih]
      · exact ih

theorem rowTable_ne_nil (record : List String) : rowTable headers record ≠ .nil :=
  LuaValue.noConfusion

theorem selected_of_matching {record : List String} (h : Matching headers column value record) :
    Selected headers column value record := by
  rw [Selected, List.getD, show record[headers.idxOf column]? = some value from h]
  rfl

/-- A record that ends in front of the column is taken for one with an empty field there. -/
theorem matching_of_selected {record : List String} (h : Selected headers column value record) :
    Matching headers column value record ↔
      (value = "" → headers.idxOf column < record.length) := by
  rw [Selected, List.getD] at h
  rw [Matching]
  cases hget : record[headers.idxOf column]? with
  | none =>
      rw [hget] at h
      have hlength := List.getElem?_eq_none_iff.mp hget
      constructor
      · intro hsome
        cases hsome
      · intro hshort
        have hlt := hshort h.symm
        omega
  | some field =>
      rw [hget] at h
      obtain ⟨hlt, -⟩ := List.getElem?_eq_some_iff.mp hget
      exact ⟨fun _ _ => hlt, fun _ => congrArg some h⟩

/-- Exactly where every selected record matches, the rows of both are the same. -/
theorem matching_rows_iff :
    (records.filter (Matching headers column value)).map (rowTable headers) =
        (records.filter (Selected headers column value)).map (rowTable headers) ↔
      (value = "" → ∀ record ∈ records, headers.idxOf column < record.length) := by
  have hfilter : records.filter (Matching headers column value) =
      (records.filter (Selected headers column value)).filter (Matching headers column value) := by
    rw [List.filter_filter]
    refine List.filter_congr fun record _ => ?_
    by_cases hmatching : Matching headers column value record
    · simp [hmatching, selected_of_matching hmatching]
    · simp [hmatching]
  have hselected {record : List String} : record ∈ records.filter (Selected headers column value) ↔
      record ∈ records ∧ Selected headers column value record := by simp
  constructor
  · intro heq hvalue record hrecord
    have hlength := congrArg List.length heq
    rw [List.length_map, List.length_map, hfilter, List.length_filter_eq_length_iff] at hlength
    by_contra hshort
    have htaken : Selected headers column value record := by
      rw [Selected, List.getD, List.getElem?_eq_none (not_lt.mp hshort), hvalue]
      rfl
    have hmatching := of_decide_eq_true (hlength record (hselected.mpr ⟨hrecord, htaken⟩))
    exact hshort ((matching_of_selected htaken).mp hmatching hvalue)
  · intro hlong
    rw [hfilter, List.filter_eq_self.mpr]
    intro record hrecord
    obtain ⟨hrecord, htaken⟩ := hselected.mp hrecord
    exact decide_eq_true ((matching_of_selected htaken).mpr fun hvalue => hlong hvalue record hrecord)

theorem csv_query_iff {rows : List LuaValue} (h : Decodes csv lua text headers records rows)
    (hcolumn : column ∈ headers) (hequals : '=' ∉ column.toList) (htrimmed : Trimmed column)
    (hvalue : Trimmed value) :
    Filters csv lua text headers records rows column value ↔
      Leading (Selected headers column value) records ∧
        (value = "" → ∀ record ∈ records, headers.idxOf column < record.length) := by
  have hrows : ∀ w ∈ (records.filter (Matching headers column value)).map (rowTable headers),
      w ≠ .nil := by
    intro w hw
    obtain ⟨record, -, rfl⟩ := List.mem_map.mp hw
    exact rowTable_ne_nil record
  rw [Filters, csvQuery_eq h.headers h.records hcolumn hequals htrimmed hvalue, Except.ok.injEq,
    h.eq_rows, filter_zip_map, arrayTable_eq_iff lua hrows, ← matching_rows_iff]
  · constructor
    · rintro ⟨rest, heq, hrest⟩
      exact ⟨leading_of_map (@rowTable_ne_nil headers) heq hrows hrest,
        rows_of_map (@rowTable_ne_nil headers) heq hrows hrest⟩
    · rintro ⟨hleading, hsame⟩
      rw [hsame]
      exact map_leading hleading

end

/-- Two names. -/
theorem names_decode : Decodes quotedTexts firstGap "name\nx\ny\n" ["name"] [["x"], ["y"]]
    [rowTable ["name"] ["x"], rowTable ["name"] ["y"]] :=
  ⟨rfl, rfl, @csvDecode_eq quotedTexts firstGap _ ["name"] [["x"], ["y"]] rfl rfl⟩

/-- The first of them. -/
theorem csv_query_iff_first :
    Filters quotedTexts firstGap "name\nx\ny\n" ["name"] [["x"], ["y"]]
        [rowTable ["name"] ["x"], rowTable ["name"] ["y"]] "name" "x" ↔
      Leading (Selected ["name"] "name" "x") [["x"], ["y"]] ∧
        ("x" = "" → ∀ record ∈ [["x"], ["y"]], ["name"].idxOf "name" < record.length) :=
  csv_query_iff names_decode (by decide) (by decide) (by decide) (by decide)

/-- The second of them comes back with the index 2 and nothing at 1. -/
theorem second_name_misnumbered : ¬ ∀ (csv : Csv) (lua : LuaJit) (text : String)
    (headers : List String) (records : List (List String)) (rows : List LuaValue)
    (column value : String), Decodes csv lua text headers records rows → column ∈ headers →
    '=' ∉ column.toList → Trimmed column → Trimmed value →
      Filters csv lua text headers records rows column value := by
  intro h
  have hfilters := h quotedTexts firstGap _ _ _ _ "name" "y" names_decode (by decide) (by decide)
    (by decide) (by decide)
  have hquery := @csvQuery_eq quotedTexts firstGap _ _ _ "name" "y" names_decode.headers
    names_decode.records (by decide) (by decide) (by decide) (by decide)
  have htable := Except.ok.inj (hquery.symm.trans hfilters)
  have hrow : ∀ w ∈ [rowTable ["name"] ["y"]], w ≠ .nil :=
    List.forall_mem_singleton.mpr LuaValue.noConfusion
  obtain ⟨rest, heq, -⟩ := (arrayTable_eq_iff firstGap hrow).mp htable
  cases heq

end Pinhead.CsvQueries
