import Mathlib.Data.List.Induction
import Mathlib.Data.Nat.Digits.Defs
import MiniC.CommandLine.Report

/-!
# Which arguments count

The arguments are read item by item, and an item is one argument, or `--max-depth` together with the
argument behind it, whatever that looks like. The first item that ends the run decides alone what is
reported. If there is none, the run depends on four things only: whether `--legacy` occurs, whether
`--strict` occurs, the last item about the cap on nesting, and the last file name.

## The crux

An item is known by its first argument, so a list of items can be written down in any order and is
cut into the same items again (`written_flatten`). The one exception is a `--max-depth` without its
number, which swallows whatever comes to stand behind it; but that item ends the run.

## The architecture

* **`written`** cuts the arguments as they are written, **`Stops`** and **`Proceeds`** sort the
  items by what they look like, and every item is of one of these sorts (`stops_or_proceeds`).
* **`Options.ofItems`** is what items that end nothing come to. One more item is one step
  (`add_item`), and **`scan_of_proceeds`** is the whole scan.
* **`run_decided_by_items`** is the result: what may be left out, and what may be moved.
-/

namespace MiniC.CommandLine

variable {arguments item : List String} {items other : List (List String)}
  {sort : List String → Bool} {text : String} {limit : Nat} {stop : Stop} {options : Options}

/-! ## Limits -/

/-- A limit in writing: decimal digits, perhaps behind a plus sign, whose value 64 bits can hold. -/
def WritesLimit (text : String) (limit : Nat) : Prop :=
  ∃ digits : List Char, digits ≠ [] ∧ (∀ d ∈ digits, d.isDigit = true) ∧
    (text.toList = digits ∨ text.toList = '+' :: digits) ∧
    limit = Nat.ofDigits 10 (digits.reverse.map fun d => d.toNat - '0'.toNat) ∧ limit ≤ 2 ^ 64 - 1

/-- The value that is summed up digit by digit is that of the digits in base ten, where the last one
counts least. -/
theorem decimalValue_eq_ofDigits (digits : List Char) :
    decimalValue digits =
      Nat.ofDigits 10 (digits.reverse.map fun d => d.toNat - '0'.toNat) := by
  rw [decimalValue, List.foldl_eq_foldr_reverse, Nat.ofDigits_eq_foldr, List.foldr_map]
  simp [Nat.add_comm]

/-- **The limits that are read are those that are written**, with their values. -/
theorem limit?_eq_some_iff : limit? text = some limit ↔ WritesLimit text limit := by
  have hplus : ('+').isDigit = false := by decide
  have hgreatest : greatestLimit = 2 ^ 64 - 1 := by decide
  unfold limit? WritesLimit
  simp only [decimalValue_eq_ofDigits, hgreatest, List.all_eq_true]
  constructor
  · intro h
    split at h
    next digits htext =>
      split at h
      next hdigits =>
        obtain ⟨hne, hall, hle⟩ := hdigits
        obtain rfl := Option.some.inj h
        exact ⟨digits, hne, hall, .inr htext, rfl, hle⟩
      next => cases h
    next hsign =>
      split at h
      next hdigits =>
        obtain ⟨hne, hall, hle⟩ := hdigits
        obtain rfl := Option.some.inj h
        exact ⟨text.toList, hne, hall, .inl rfl, rfl, hle⟩
      next => cases h
  · rintro ⟨digits, hne, hall, htext | htext, rfl, hle⟩
    · rw [htext]
      split
      next rest =>
        -- the sign is no digit, so the digits do not begin with one
        have hsign := hall '+' List.mem_cons_self
        rw [hplus] at hsign
        cases hsign
      next => exact if_pos ⟨hne, hall, hle⟩
    · rw [htext]
      exact if_pos ⟨hne, hall, hle⟩

/-! ## Items as they are written -/

/-- The arguments item by item: `--max-depth` goes together with the argument behind it, and every
other argument stands by itself. -/
def written : List String → List (List String)
  | [] => []
  | [argument] => [[argument]]
  | argument :: next :: rest =>
    if argument = "--max-depth" then [argument, next] :: written rest
    else [argument] :: written (next :: rest)

example : written ["--max-depth", "--help", "-x"] = [["--max-depth", "--help"], ["-x"]] := by decide

/-- An item ends the run: a request for help, an option that nobody knows, or `--max-depth` without
a number. -/
inductive Stops : List String → Stop → Prop where
  | help {argument : String} (hhelp : argument = "-h" ∨ argument = "--help") :
      Stops [argument] .help
  | unknown {argument : String} (hoption : ['-', '-'] <+: argument.toList)
      (hunknown : argument ∉
        ["--legacy", "--strict", "--no-depth-limit", "--max-depth", "--help"]) :
      Stops [argument] (.unknownOption argument)
  | missing : Stops ["--max-depth"] .missingNumber
  | malformed {text : String} (hnumber : ∀ limit, ¬ WritesLimit text limit) :
      Stops ["--max-depth", text] .missingNumber

/-- An item that ends nothing. What does not begin with two hyphens is a file name, unless it is
`-h`. -/
inductive Proceeds : List String → Prop where
  | legacy : Proceeds ["--legacy"]
  | strict : Proceeds ["--strict"]
  | noDepthLimit : Proceeds ["--no-depth-limit"]
  | maxDepth {text : String} {limit : Nat} (hnumber : WritesLimit text limit) :
      Proceeds ["--max-depth", text]
  | file {name : String} (hhelp : name ≠ "-h") (hname : ¬ ['-', '-'] <+: name.toList) :
      Proceeds [name]

/-- Cut into items, the arguments are all still there. -/
theorem flatten_written (arguments : List String) : (written arguments).flatten = arguments := by
  fun_induction written arguments with
  | case1 => rfl
  | case2 argument => rfl
  | case3 next rest ih => simp [ih]
  | case4 argument next rest hdepth ih => simp [ih]

/-- The scan cuts the arguments item by item. -/
theorem ofArguments_eq_flatMap (arguments : List String) :
    Item.ofArguments arguments = (written arguments).flatMap Item.ofArguments := by
  fun_induction written arguments with
  | case1 => rfl
  | case2 argument => simp
  | case3 next rest ih => simp [Item.ofArguments, ih]
  | case4 argument next rest hdepth ih => simp [Item.ofArguments, hdepth, ih]

/-- Every argument that takes no value is of one of the two sorts. -/
theorem stops_or_proceeds_argument {argument : String} (hdepth : argument ≠ "--max-depth") :
    (∃ stop, Stops [argument] stop) ∨ Proceeds [argument] := by
  by_cases hhelp : argument = "-h" ∨ argument = "--help"
  · exact .inl ⟨_, .help hhelp⟩
  rw [not_or] at hhelp
  by_cases hlegacy : argument = "--legacy"
  · subst hlegacy
    exact .inr .legacy
  by_cases hstrict : argument = "--strict"
  · subst hstrict
    exact .inr .strict
  by_cases hnoLimit : argument = "--no-depth-limit"
  · subst hnoLimit
    exact .inr .noDepthLimit
  by_cases hoption : ['-', '-'] <+: argument.toList
  · exact .inl ⟨_, .unknown hoption (by simp [hlegacy, hstrict, hnoLimit, hdepth, hhelp.2])⟩
  · exact .inr (.file hhelp.1 hoption)

/-- Every item ends the run, or is one of those that do not. -/
theorem stops_or_proceeds (h : item ∈ written arguments) :
    (∃ stop, Stops item stop) ∨ Proceeds item := by
  fun_induction written arguments with
  | case1 => cases h
  | case2 argument =>
    obtain rfl := List.mem_singleton.1 h
    by_cases hdepth : argument = "--max-depth"
    · subst hdepth
      exact .inl ⟨_, .missing⟩
    · exact stops_or_proceeds_argument hdepth
  | case3 next rest ih =>
    rcases List.mem_cons.1 h with rfl | hlater
    · by_cases hnumber : ∃ limit, WritesLimit next limit
      · obtain ⟨limit, hnumber⟩ := hnumber
        exact .inr (.maxDepth hnumber)
      · exact .inl ⟨_, .malformed (not_exists.1 hnumber)⟩
    · exact ih hlater
  | case4 argument next rest hdepth ih =>
    rcases List.mem_cons.1 h with rfl | hlater
    · exact stops_or_proceeds_argument hdepth
    · exact ih hlater

/-- Items that do not end the run can be written in any order. -/
theorem written_flatten (h : ∀ item ∈ items, Proceeds item) : written items.flatten = items := by
  have hsingle {argument : String} (hdepth : argument ≠ "--max-depth") (rest : List String) :
      written (argument :: rest) = [argument] :: written rest := by
    cases rest with
    | nil => rfl
    | cons next rest => rw [written, if_neg hdepth]
  induction items with
  | nil => rfl
  | cons item items ih =>
    obtain ⟨hitem, hitems⟩ := List.forall_mem_cons.1 h
    rw [List.flatten_cons]
    cases hitem with
    | legacy | strict | noDepthLimit =>
      rw [List.singleton_append, hsingle (by decide), ih hitems]
    | maxDepth =>
      show written ("--max-depth" :: _ :: items.flatten) = _
      rw [written, if_pos rfl, ih hitems]
    | @file name hhelp hname =>
      have hdepth : name ≠ "--max-depth" := by
        rintro rfl
        exact hname (by decide)
      rw [List.singleton_append, hsingle hdepth, ih hitems]

/-! ## What the items come to -/

/-- The last item of a sort. -/
def last? (sort : List String → Bool) (items : List (List String)) : Option (List String) :=
  (items.filter sort).getLast?

/-- An item of the sort at the end is the last one; any other item changes nothing. -/
@[simp] theorem last?_append_singleton (sort : List String → Bool) (items : List (List String))
    (item : List String) :
    last? sort (items ++ [item]) = if sort item then some item else last? sort items := by
  unfold last?
  split
  next h => simp [List.filter_append, h]
  next h => simp [List.filter_append, h]

def setsDepth (item : List String) : Bool :=
  item.head? = some "--max-depth" ∨ item.head? = some "--no-depth-limit"

def namesFile : List String → Bool
  | [name] => name ≠ "-h" ∧ ¬ ['-', '-'] <+: name.toList
  | _ => false

def depthAsked : List String → Option Nat
  | [_, text] => limit? text
  | _ => none

/-- What items come to of which none ends the run: a switch counts once it occurs, and of the items
about nesting and of the file names the last one counts. -/
def Options.ofItems (items : List (List String)) : Options where
  settings :=
    { dialect := if ["--legacy"] ∈ items then .legacy else .standard
      maxDepth := ((last? setsDepth items).map depthAsked).getD (some Settings.defaultMaxDepth)
      strict := decide (["--strict"] ∈ items) }
  file := (last? namesFile items).bind List.head?

/-- A file name is an item of its own, and different from all switches. -/
theorem ofArguments_file {name : String} (hhelp : name ≠ "-h")
    (hname : ¬ ['-', '-'] <+: name.toList) :
    Item.ofArguments [name] = [.file name] ∧ name ≠ "--legacy" ∧ name ≠ "--strict" ∧
      name ≠ "--max-depth" ∧ name ≠ "--no-depth-limit" := by
  have hne {option : String} (hoption : ['-', '-'] <+: option.toList) : name ≠ option := by
    rintro rfl
    exact hname hoption
  have hlegacy : name ≠ "--legacy" := hne (by decide)
  have hstrict : name ≠ "--strict" := hne (by decide)
  have hdepth : name ≠ "--max-depth" := hne (by decide)
  have hnoLimit : name ≠ "--no-depth-limit" := hne (by decide)
  have hlong : name ≠ "--help" := hne (by decide)
  refine ⟨?_, hlegacy, hstrict, hdepth, hnoLimit⟩
  simp [Item.ofArguments, Item.ofArgument, hlegacy, hstrict, hdepth, hnoLimit, hlong, hhelp, hname]

/-- One more item. -/
theorem add_item (items : List (List String)) (h : Proceeds item) :
    (Item.ofArguments item).foldlM Options.add (Options.ofItems items) =
      .ok (Options.ofItems (items ++ [item])) := by
  cases h with
  | legacy =>
    simp [Item.ofArguments, Item.ofArgument, Options.add, Options.ofItems, Settings.withDialect,
      setsDepth, namesFile]
  | strict =>
    simp [Item.ofArguments, Item.ofArgument, Options.add, Options.ofItems,
      Settings.withTrailingTokensRefused, setsDepth, namesFile]
  | noDepthLimit =>
    simp [Item.ofArguments, Item.ofArgument, Options.add, Options.ofItems, Settings.withMaxDepth,
      setsDepth, namesFile, depthAsked]
  | maxDepth hnumber =>
    simp [Item.ofArguments, Options.add, Options.ofItems, Settings.withMaxDepth,
      setsDepth, namesFile, depthAsked, limit?_eq_some_iff.2 hnumber]
  | @file name hhelp hname =>
    obtain ⟨hitem, hlegacy, hstrict, hdepth, hnoLimit⟩ := ofArguments_file hhelp hname
    rw [hitem]
    simp [Options.add, Options.ofItems, setsDepth, namesFile, hhelp, hname, hlegacy.symm,
      hstrict.symm, hdepth, hnoLimit]

/-- An item that ends the run does so whatever was asked for before. -/
theorem add_item_of_stops (options : Options) (h : Stops item stop) :
    (Item.ofArguments item).foldlM Options.add options = .error stop := by
  cases h with
  | help hhelp =>
    rcases hhelp with rfl | rfl <;> rfl
  | @unknown argument hoption hunknown =>
    simp only [List.mem_cons, List.not_mem_nil, or_false, not_or] at hunknown
    obtain ⟨hlegacy, hstrict, hnoLimit, hdepth, hhelp⟩ := hunknown
    have hshort : argument ≠ "-h" := by
      rintro rfl
      revert hoption
      decide
    simp [Item.ofArguments, Item.ofArgument, Options.add, hlegacy, hstrict, hnoLimit, hdepth, hhelp,
      hshort, hoption]
  | missing => rfl
  | @malformed text hnumber =>
    have hnone : limit? text = none := by
      rw [Option.eq_none_iff_forall_ne_some]
      intro limit hlimit
      exact hnumber limit (limit?_eq_some_iff.1 hlimit)
    simp [Item.ofArguments, Options.add, hnone]

/-- Items that end nothing come to what `Options.ofItems` says, by induction from the end. -/
theorem foldlM_of_proceeds (h : ∀ item ∈ items, Proceeds item) :
    (items.flatMap Item.ofArguments).foldlM Options.add {} = .ok (Options.ofItems items) := by
  -- the last item is the one that counts, so the induction takes items off at the end
  induction items using List.reverseRecOn with
  | nil => rfl
  | append_singleton items item ih =>
    rw [List.forall_mem_append, List.forall_mem_singleton] at h
    rw [List.flatMap_append, List.foldlM_append, ih h.1, List.flatMap_singleton]
    exact add_item items h.2

/-- **A scan that nothing ends.** -/
theorem scan_of_proceeds (h : ∀ item ∈ written arguments, Proceeds item) :
    Options.scan arguments = .ok (Options.ofItems (written arguments)) := by
  rw [Options.scan, ofArguments_eq_flatMap, foldlM_of_proceeds h]

/-- **A scan that an item ends.** -/
theorem scan_of_stops {front later : List (List String)}
    (hwritten : written arguments = front ++ item :: later)
    (hfront : ∀ earlier ∈ front, Proceeds earlier) (hstops : Stops item stop) :
    Options.scan arguments = .error stop := by
  rw [Options.scan, ofArguments_eq_flatMap, hwritten, List.flatMap_append, List.foldlM_append,
    foldlM_of_proceeds hfront]
  show ((item :: later).flatMap Item.ofArguments).foldlM Options.add _ = _
  rw [List.flatMap_cons, List.foldlM_append, add_item_of_stops _ hstops]
  rfl

/-! ## What may be left out and moved -/

/-- The items that say all there is to say: each switch that occurs, the last item about nesting,
and the last file name. -/
def essential (items : List (List String)) : List (List String) :=
  [["--legacy"], ["--strict"]].filter (· ∈ items) ++ (last? setsDepth items).toList ++
    (last? namesFile items).toList

/-- Two lists of items agree on what counts. -/
structure Alike (items other : List (List String)) : Prop where
  legacy : ["--legacy"] ∈ items ↔ ["--legacy"] ∈ other
  strict : ["--strict"] ∈ items ↔ ["--strict"] ∈ other
  depth : last? setsDepth items = last? setsDepth other
  file : last? namesFile items = last? namesFile other

/-- Items that agree on what counts come to the same options. -/
theorem Alike.ofItems_eq (h : Alike items other) :
    Options.ofItems items = Options.ofItems other := by
  simp only [Options.ofItems, h.legacy, h.strict, h.depth, h.file]

/-- So the runs are the same, and nothing depends on what stands at the paths. -/
theorem Alike.run_eq (program : String) (lookup : String → FileEntry)
    (h : Alike items (written arguments)) (hitems : ∀ item ∈ items, Proceeds item)
    (harguments : ∀ item ∈ written arguments, Proceeds item) :
    run program items.flatten lookup = run program arguments lookup := by
  have hscan : Options.scan items.flatten = Options.scan arguments := by
    have hwritten := written_flatten hitems
    rw [scan_of_proceeds harguments, ← h.ofItems_eq, scan_of_proceeds (by rwa [hwritten]), hwritten]
  rw [run, run, plan, plan, hscan]

/-! The sorts exclude one another. -/

theorem setsDepth_of_namesFile (h : namesFile item = true) : setsDepth item = false := by
  unfold namesFile at h
  split at h
  next name =>
    simp only [decide_eq_true_eq] at h
    obtain ⟨-, -, -, hdepth, hnoLimit⟩ := ofArguments_file h.1 h.2
    simp [setsDepth, hdepth, hnoLimit]
  next => cases h

theorem last?_eq_some (h : last? sort items = some item) : item ∈ items ∧ sort item = true :=
  List.mem_filter.1 (List.mem_of_getLast? h)

theorem filter_toList_last? (sort : List String → Bool) (items : List (List String)) :
    (last? sort items).toList.filter sort = (last? sort items).toList := by
  rw [List.filter_eq_self]
  intro item hitem
  exact (last?_eq_some (Option.mem_toList.1 hitem)).2

theorem filter_toList_last?_eq_nil {sort sort' : List String → Bool}
    (hexclude : ∀ item, sort item = true → sort' item = false) (items : List (List String)) :
    (last? sort items).toList.filter sort' = [] := by
  rw [List.filter_eq_nil_iff]
  intro item hitem
  rw [hexclude item (last?_eq_some (Option.mem_toList.1 hitem)).2]
  exact Bool.false_ne_true

theorem filter_switches {sort : List String → Bool} (hlegacy : sort ["--legacy"] = false)
    (hstrict : sort ["--strict"] = false) (items : List (List String)) :
    ([["--legacy"], ["--strict"]].filter (· ∈ items)).filter sort = [] := by
  rw [List.filter_filter]
  simp [hlegacy, hstrict]

/-- Of the essential items one at most is about nesting, and it is the last such item. -/
theorem filter_essential_setsDepth (items : List (List String)) :
    (essential items).filter setsDepth = (last? setsDepth items).toList := by
  have hswitches := filter_switches (show setsDepth ["--legacy"] = false from rfl) rfl items
  have hfile : (last? namesFile items).toList.filter setsDepth = [] :=
    filter_toList_last?_eq_nil (fun _ hname => setsDepth_of_namesFile hname) items
  simp only [essential, List.filter_append, hswitches, hfile, filter_toList_last?, List.nil_append,
    List.append_nil]

theorem filter_essential_namesFile (items : List (List String)) :
    (essential items).filter namesFile = (last? namesFile items).toList := by
  have hswitches := filter_switches (show namesFile ["--legacy"] = false from rfl) rfl items
  have hdepth : (last? setsDepth items).toList.filter namesFile = [] := by
    refine filter_toList_last?_eq_nil (fun item hsets => Bool.eq_false_iff.2 fun hname => ?_) items
    rw [setsDepth_of_namesFile hname] at hsets
    cases hsets
  simp only [essential, List.filter_append, hswitches, hdepth, filter_toList_last?, List.nil_append]

theorem mem_of_mem_essential (h : item ∈ essential items) : item ∈ items := by
  rw [essential, List.mem_append, List.mem_append, Option.mem_toList, Option.mem_toList] at h
  rcases h with (hswitch | hdepth) | hfile
  · exact of_decide_eq_true (List.mem_filter.1 hswitch).2
  · exact (last?_eq_some hdepth).1
  · exact (last?_eq_some hfile).1

/-- A switch is essential if it occurs. -/
theorem mem_essential_of_switch (hswitch : item ∈ [["--legacy"], ["--strict"]]) :
    item ∈ essential items ↔ item ∈ items := by
  constructor
  · exact mem_of_mem_essential
  · intro h
    rw [essential, List.append_assoc]
    exact List.mem_append_left _ (List.mem_filter.2 ⟨hswitch, decide_eq_true h⟩)

/-- Of a sort with one item at most, that item is the last one in any order. -/
theorem last?_of_perm {found : Option (List String)} (h : (items.filter sort).Perm found.toList) :
    last? sort items = found := by
  unfold last?
  cases found with
  | none => rw [List.perm_nil.1 h]; rfl
  | some item => rw [List.perm_singleton.1 h]; rfl

/-- **The essential items, in any order, agree with all items on what counts.** -/
theorem alike_of_perm_essential (h : items.Perm (essential other)) : Alike items other where
  legacy := by rw [h.mem_iff, mem_essential_of_switch (by decide)]
  strict := by rw [h.mem_iff, mem_essential_of_switch (by decide)]
  depth := last?_of_perm (by rw [← filter_essential_setsDepth]; exact h.filter setsDepth)
  file := last?_of_perm (by rw [← filter_essential_namesFile]; exact h.filter namesFile)

/-- Of the items that end a run, only a request for help makes it a success, and none prints
anything on standard output. -/
theorem exit_report (program : String) (stop : Stop) :
    (stop.report program).exit = (if stop = .help then 0 else 1) ∧
      (stop.report program).stdout = "" := by
  cases stop <;> exact ⟨rfl, rfl⟩

/-- **Which arguments count.** The first item that ends the run decides the report alone, whatever
comes behind it and whatever files there are. If no item ends the run, all items can be left out but
the switches that occur, the last item about nesting and the last file name, in any order; and all
items can be moved as long as those two stay the last of their sorts. -/
theorem run_decided_by_items (program : String) (arguments : List String) :
    (written arguments).flatten = arguments ∧
    (∀ front item later stop, written arguments = front ++ item :: later →
      (∀ earlier ∈ front, ∀ stop, ¬ Stops earlier stop) → Stops item stop →
      ∀ lookup, run program arguments lookup = stop.report program ∧
        (stop.report program).exit = (if stop = .help then 0 else 1) ∧
        (stop.report program).stdout = "") ∧
    ((∀ item ∈ written arguments, ∀ stop, ¬ Stops item stop) →
      (∀ kept : List (List String), kept.Perm (essential (written arguments)) →
        ∀ lookup, run program kept.flatten lookup = run program arguments lookup) ∧
      ∀ moved : List (List String), moved.Perm (written arguments) →
        last? setsDepth moved = last? setsDepth (written arguments) →
        last? namesFile moved = last? namesFile (written arguments) →
        ∀ lookup, run program moved.flatten lookup = run program arguments lookup) := by
  -- an item ends the run or counts; there is no third sort
  have hproceeds {item : List String} (hitem : item ∈ written arguments)
      (hstops : ∀ stop, ¬ Stops item stop) : Proceeds item :=
    (stops_or_proceeds hitem).resolve_left fun ⟨stop, h⟩ => hstops stop h
  refine ⟨flatten_written arguments, ?_, fun hnone => ?_⟩
  · intro front item later stop hwritten hfront hstops lookup
    have hscan : Options.scan arguments = .error stop := by
      refine scan_of_stops hwritten (fun earlier hearlier => ?_) hstops
      refine hproceeds ?_ (hfront earlier hearlier)
      rw [hwritten]
      exact List.mem_append_left _ hearlier
    refine ⟨?_, exit_report program stop⟩
    rw [run, plan, hscan]
  · have harguments : ∀ item ∈ written arguments, Proceeds item :=
      fun item hitem => hproceeds hitem (hnone item hitem)
    constructor
    · intro kept hkept lookup
      refine (alike_of_perm_essential hkept).run_eq program lookup (fun item hitem => ?_) harguments
      exact harguments item (mem_of_mem_essential (hkept.mem_iff.1 hitem))
    · intro moved hmoved hdepth hfile lookup
      have halike : Alike moved (written arguments) :=
        ⟨hmoved.mem_iff, hmoved.mem_iff, hdepth, hfile⟩
      exact halike.run_eq program lookup
        (fun item hitem => harguments item (hmoved.mem_iff.1 hitem)) harguments

end MiniC.CommandLine
