import LoxLang.Cli.Directory
/-!
# Writing into a directory

A file written next to another one changes what its own path leads to and nothing about which paths
lead to directories. The walk along a path asks of every place only whether it is a directory, so all
paths lead to the same places before and after.
-/

namespace LoxLang.Cli

namespace Path

/-! ### Names with something added -/

theorem extend_append {p : Path} {folder : List String} {name : String} (h : p.steps = folder ++ [name])
    (suffix : String) : p.extend suffix = ⟨p.root, folder ++ [name ++ suffix]⟩ := by
  simp [extend, h]

theorem toString_extend {p : Path} {folder : List String} {name : String} (h : p.steps = folder ++ [name])
    (suffix : String) : (p.extend suffix).toString = p.toString ++ suffix := by
  rw [extend_append h, toString, toString, h, if_neg (by simp), if_neg (by simp)]
  by_cases hfolder : folder = []
  · simp [hfolder, String.append_assoc]
  · simp [String.intercalate_append_of_ne_nil hfolder, String.append_assoc]

theorem pieces_of_not_mem {cs : List Char} (h : '/' ∉ cs) (piece : List Char) :
    pieces piece cs = [piece.reverse ++ cs] := by
  induction cs generalizing piece with
  | nil => simp [pieces]
  | cons c rest ih =>
    obtain ⟨hc, hrest⟩ := not_or.mp (mt List.mem_cons.mpr h)
    rw [pieces, if_neg (Ne.symm hc), ih hrest]
    simp

theorem pieces_append {suffix : List Char} (h : '/' ∉ suffix) (piece cs : List Char) :
    ∃ before last, pieces piece cs = before ++ [last] ∧ pieces piece (cs ++ suffix) = before ++ [last ++ suffix] := by
  induction cs generalizing piece with
  | nil => exact ⟨[], piece.reverse, rfl, pieces_of_not_mem h piece⟩
  | cons c rest ih =>
    rw [List.cons_append, pieces, pieces]
    by_cases hc : c = '/'
    · obtain ⟨before, last, hpieces, happend⟩ := ih []
      exact ⟨piece.reverse :: before, last, by simp [hc, hpieces], by simp [hc, happend]⟩
    · rw [if_neg hc, if_neg hc]
      exact ih (c :: piece)

/-- The root is settled by the slashes in front. -/
theorem rootOf_append {suffix : List Char} (h : '/' ∉ suffix) (cs : List Char) : rootOf (cs ++ suffix) = rootOf cs := by
  have hother : ∀ rest, suffix ≠ '/' :: rest := fun rest heq => h (heq ▸ List.mem_cons_self)
  fun_cases rootOf cs with
  | case1 rest => rfl
  | case2 rest hrest =>
    cases rest with
    | nil => simp [rootOf]
    | cons c more => simp_all [rootOf]
  | case3 rest h1 h2 =>
    cases rest with
    | nil => simp [rootOf, hother]
    | cons c more => simp_all [rootOf]
  | case4 cs h1 h2 h3 =>
    cases cs with
    | nil => simp [rootOf, hother]
    | cons c more => simp_all [rootOf]

/-- The text of a path ends in the name of a file. -/
def EndsInName (text : String) : Prop :=
  ∃ name ∉ ["", ".", ".."], (pieces [] text.toList).getLast? = some name.toList

theorem append_ne {name : String} (h : name ≠ "" ∧ name ≠ ".") (suffix : String) :
    name ++ suffix ≠ "" ∧ name ++ suffix ≠ "." := by
  constructor
  · intro hempty
    exact h.1 (String.append_eq_empty_iff.mp hempty).1
  · intro hdot
    have hlist : name.toList ++ suffix.toList = ['.'] := by rw [← String.toList_append, hdot]; rfl
    obtain ⟨hname, -⟩ | ⟨hname, -⟩ := List.append_eq_singleton_iff.mp hlist
    · exact h.1 (String.toList_inj.mp hname)
    · exact h.2 (String.toList_inj.mp hname)

theorem steps_ofString {text name : String} {before : List (List Char)}
    (h : pieces [] text.toList = before ++ [name.toList]) (hname : name ≠ "" ∧ name ≠ ".") :
    (ofString text).steps = ((before.map String.ofList).filter fun step => step ≠ "" ∧ step ≠ ".") ++ [name] := by
  rw [ofString, h]
  simp [hname]

variable {text suffix : String}

theorem EndsInName.steps (h : EndsInName text) :
    ∃ folder name, name ∉ ["", ".", ".."] ∧ (ofString text).steps = folder ++ [name] := by
  obtain ⟨name, hname, hlast⟩ := h
  obtain ⟨before, hbefore⟩ := List.getLast?_eq_some_iff.mp hlast
  exact ⟨_, name, hname, steps_ofString hbefore (by simp_all)⟩

/-- A text added to the name of a file is a text added to the last step of the path. -/
theorem ofString_append (h : EndsInName text) (hsuffix : '/' ∉ suffix.toList) :
    ofString (text ++ suffix) = (ofString text).extend suffix := by
  obtain ⟨name, hname, hlast⟩ := h
  obtain ⟨before, last, hpieces, happend⟩ := pieces_append hsuffix [] text.toList
  obtain rfl : last = name.toList := by simpa [hpieces] using hlast
  have hkeep : name ≠ "" ∧ name ≠ "." := by simp_all
  have hpieces' : pieces [] (text ++ suffix).toList = before ++ [(name ++ suffix).toList] := by simpa using happend
  rw [extend_append (steps_ofString hpieces hkeep), ← steps_ofString hpieces' (append_ne hkeep suffix)]
  have hroot : (ofString (text ++ suffix)).root = (ofString text).root := by
    simp [ofString, rootOf_append hsuffix]
  rw [← hroot]

end Path

namespace Directory

variable {d : Directory} {steps : List String} {text : String}

/-! ### Walks -/

theorem walk_append (d : Directory) (here : Option (List String)) (first second : List String) :
    d.walk here (first ++ second) =
      match d.walk here first with
      | .below place => d.walk (some place) second
      | .above => d.walk none second
      | landing => landing := by
  fun_induction walk d here first with
  | case1 => rfl
  | case2 => rfl
  | case3 rest ih => simpa [walk] using ih
  | case4 step rest hup hlong => simp [walk, hup, hlong]
  | case5 step rest hup hlong => simp [walk, hup, hlong]
  | case6 here step rest hplace => simp [walk, hplace]
  | case7 here rest hplace ih => simpa [walk, hplace] using ih
  | case8 here step rest hplace hup hlong => simp [walk, hplace, hup, hlong]
  | case9 here step rest hplace hup hlong ih => simpa [walk, hplace, hup, hlong] using ih

/-- All places on the way to the given one are directories. -/
def Reaches (d : Directory) (place : List String) : Prop :=
  ∀ n < place.length, d.entryAt (place.take n) = .directory

theorem Reaches.append {place : List String} (h : d.Reaches place) (hplace : d.entryAt place = .directory)
    (step : String) : d.Reaches (place ++ [step]) := by
  intro n hn
  rw [List.length_append, List.length_singleton] at hn
  rw [List.take_append_of_le_length (by omega)]
  by_cases hlast : n = place.length
  · rw [hlast, List.take_length]
    exact hplace
  · exact h n (by omega)

theorem Reaches.dropLast {place : List String} (h : d.Reaches place) : d.Reaches place.dropLast := by
  intro n hn
  rw [List.length_dropLast] at hn
  rw [List.dropLast_eq_take, List.take_take, Nat.min_eq_left (by omega)]
  exact h n (by omega)

/-- A walk passes only through directories. -/
theorem reaches_of_walk {here : Option (List String)} {place : List String} (hhere : ∀ p ∈ here, d.Reaches p)
    (h : d.walk here steps = .below place) : d.Reaches place := by
  fun_induction walk d here steps with
  | case1 => cases h
  | case2 here =>
    cases h
    exact hhere _ rfl
  | case3 rest ih => exact ih (by simp) h
  | case4 => cases h
  | case5 => cases h
  | case6 => cases h
  | case7 here rest hplace ih =>
    apply ih _ h
    intro p hp
    by_cases hempty : here = []
    · simp [hempty] at hp
    · obtain rfl : here.dropLast = p := by simpa [hempty] using hp
      exact (hhere here rfl).dropLast
  | case8 => cases h
  | case9 here step rest hplace hup hlong ih =>
    apply ih _ h
    intro p hp
    obtain rfl : here ++ [step] = p := by simpa using hp
    exact (hhere here rfl).append (by simpa using hplace) step

/-- Where the steps of a path start. -/
def startOf (p : Path) : Option (List String) := if p.root = "" then some [] else none

theorem walk_of_follow {p : Path} (h : d.follow p = .below steps) :
    '\x00' ∉ p.toString.toList ∧ d.walk (startOf p) p.steps = .below steps := by
  unfold follow at h
  split at h
  · cases h
  · rename_i hclean
    split at h
    · cases h
    · exact ⟨by simpa using hclean, h⟩

theorem reaches_of_follow {p : Path} (h : d.follow p = .below steps) : d.Reaches steps := by
  obtain ⟨-, hwalk⟩ := walk_of_follow h
  apply reaches_of_walk _ hwalk
  intro place hplace
  obtain rfl : [] = place := by
    unfold startOf at hplace
    split at hplace
    · exact Option.some.inj hplace
    · cases hplace
  intro n hn
  exact absurd hn (Nat.not_lt_zero n)

/-! ### Places after a write -/

/-- A directory with the entry at the given steps replaced by a file. -/
def put (d : Directory) (steps : List String) (text : String) : Directory :=
  ⟨(d.entries.filter fun (path, _) => path ≠ steps) ++ [(steps, .file (some text))]⟩

theorem write_eq_put {p : Path} (h : d.follow p = .below steps) (text : String) :
    d.write p text = d.put steps text := by
  rw [write, h]
  rfl

theorem entryAt_put_self : (d.put steps text).entryAt steps = .file (some text) := by
  have hnone : (d.entries.filter fun (path, _) => path ≠ steps).lookup steps = none := by
    rw [List.lookup_eq_none_iff]
    intro entry hentry
    have hpath : entry.1 ≠ steps := by simpa using (List.mem_filter.mp hentry).2
    exact bne_iff_ne.mpr hpath.symm
  rw [entryAt, put, List.lookup_append, hnone, Option.none_or, List.lookup_cons_self]

theorem lookup_filter_of_ne {place : List String} (hplace : place ≠ steps) (entries : List (List String × Entry)) :
    (entries.filter fun (path, _) => path ≠ steps).lookup place = entries.lookup place := by
  induction entries with
  | nil => rfl
  | cons entry rest ih =>
    obtain ⟨path, found⟩ := entry
    by_cases hpath : path = steps
    · have hother : (place == path) = false := beq_false_of_ne fun h => hplace (h.trans hpath)
      rw [List.filter_cons_of_neg (by simp [hpath]), List.lookup_cons, hother]
      exact ih
    · rw [List.filter_cons_of_pos (by simp [hpath]), List.lookup_cons, List.lookup_cons, ih]

/-- The place of a prefix of given steps that is not all of them. -/
theorem Reaches.directory {place : List String} (h : d.Reaches steps) (hplace : place <+: steps)
    (hne : place ≠ steps) : d.entryAt place = .directory := by
  obtain ⟨rest, rfl⟩ := hplace
  have hrest : rest ≠ [] := by
    intro hempty
    exact hne (by rw [hempty, List.append_nil])
  have hlength := List.length_pos_iff.mpr hrest
  have htake := h place.length (by rw [List.length_append]; omega)
  rwa [List.take_left] at htake

/-- A place without an entry of its own is a directory if something lies below it. -/
theorem entryAt_eq_directory_of_none {place : List String} (h : d.entries.lookup place = none) :
    d.entryAt place = .directory ↔ place = [] ∨ ∃ entry ∈ d.entries, place <+: entry.1 := by
  rw [entryAt, h]
  simp only [Bool.or_eq_true, decide_eq_true_eq, List.any_eq_true, List.isPrefixOf_iff_prefix, ite_eq_left_iff,
    reduceCtorEq, imp_false, Classical.not_not]

theorem entryAt_put_eq_directory (hsteps : d.Reaches steps) (hfree : d.entryAt steps ≠ .directory)
    (place : List String) : (d.put steps text).entryAt place = .directory ↔ d.entryAt place = .directory := by
  by_cases hplace : place = steps
  · rw [hplace, entryAt_put_self]
    simp [hfree]
  · have hsame : (d.put steps text).entries.lookup place = d.entries.lookup place := by
      rw [put, List.lookup_append, lookup_filter_of_ne hplace, List.lookup_cons, beq_false_of_ne hplace]
      exact Option.or_none
    cases hlookup : d.entries.lookup place with
    | some entry => rw [entryAt, entryAt, hsame, hlookup]
    | none =>
      rw [hlookup] at hsame
      constructor
      · intro h
        obtain rfl | ⟨entry, hentry, hbelow⟩ := (entryAt_eq_directory_of_none hsame).mp h
        · exact (entryAt_eq_directory_of_none hlookup).mpr (.inl rfl)
        · obtain hold | hnew := List.mem_append.mp hentry
          · exact (entryAt_eq_directory_of_none hlookup).mpr (.inr ⟨entry, (List.mem_filter.mp hold).1, hbelow⟩)
          · rw [List.mem_singleton.mp hnew] at hbelow
            exact hsteps.directory hbelow hplace
      · intro h
        apply (entryAt_eq_directory_of_none hsame).mpr
        obtain rfl | ⟨entry, hentry, hbelow⟩ := (entryAt_eq_directory_of_none hlookup).mp h
        · exact .inl rfl
        -- An entry that was replaced has the new one in its place.
        · by_cases hpath : entry.1 = steps
          · exact .inr ⟨_, List.mem_append_right _ (List.mem_singleton_self _), hpath ▸ hbelow⟩
          · exact .inr ⟨entry, List.mem_append_left _ (List.mem_filter.mpr ⟨hentry, by simp [hpath]⟩), hbelow⟩

theorem walk_put (hsteps : d.Reaches steps) (hfree : d.entryAt steps ≠ .directory) (here : Option (List String))
    (path : List String) : (d.put steps text).walk here path = d.walk here path := by
  fun_induction walk d here path with
  | case1 => rfl
  | case2 => rfl
  | case3 rest ih => simpa [walk] using ih
  | case4 step rest hup hlong => simp [walk, hup, hlong]
  | case5 step rest hup hlong => simp [walk, hup, hlong]
  | case6 here step rest hplace => simp [walk, hplace, entryAt_put_eq_directory hsteps hfree]
  | case7 here rest hplace ih => simpa [walk, hplace, entryAt_put_eq_directory hsteps hfree] using ih
  | case8 here step rest hplace hup hlong =>
    simp [walk, hplace, hup, hlong, entryAt_put_eq_directory hsteps hfree]
  | case9 here step rest hplace hup hlong ih =>
    simpa [walk, hplace, hup, hlong, entryAt_put_eq_directory hsteps hfree] using ih

section

variable {p : Path} (hp : d.follow p = .below steps) (hfree : d.lookup p ≠ .directory) (text : String)

include hp hfree

theorem entryAt_ne_directory : d.entryAt steps ≠ .directory := by
  rwa [lookup, hp] at hfree

theorem follow_write (q : Path) : (d.write p text).follow q = d.follow q := by
  rw [write_eq_put hp, follow, follow]
  simp only [walk_put (reaches_of_follow hp) (entryAt_ne_directory hp hfree)]

/-- What was written is found where it was written. -/
theorem lookup_write_self : (d.write p text).lookup p = .file (some text) := by
  rw [lookup, follow_write hp hfree text, hp, write_eq_put hp]
  exact entryAt_put_self

/-- A written file neither makes nor hides a directory. -/
theorem lookup_write_eq_directory (q : Path) : (d.write p text).lookup q = .directory ↔ d.lookup q = .directory := by
  rw [lookup, follow_write hp hfree text, lookup, write_eq_put hp]
  cases d.follow q with
  | nowhere => rfl
  | tooLong => rfl
  | above => rfl
  | below place => exact entryAt_put_eq_directory (reaches_of_follow hp) (entryAt_ne_directory hp hfree) place

end

/-! ### Neighbours of a file -/

theorem follow_of_lookup_file {p : Path} {text : Option String} (h : d.lookup p = .file text) :
    ∃ place, d.follow p = .below place := by
  cases hfollow : d.follow p with
  | below place => exact ⟨place, rfl⟩
  | _ =>
    rw [lookup, hfollow] at h
    cases h

theorem walk_name {within : List String} {name : String} (hwithin : d.entryAt within = .directory)
    (hname : name ≠ "..") :
    d.walk (some within) [name] = if nameLimit < name.utf8ByteSize then .tooLong else .below (within ++ [name]) := by
  simp only [walk, ne_eq, hwithin, not_true_eq_false, if_false, if_neg hname]

theorem folder_of_walk {here : Option (List String)} {folder : List String} {name : String} {place : List String}
    (hname : name ≠ "..") (h : d.walk here (folder ++ [name]) = .below place) :
    ∃ within, d.walk here folder = .below within ∧ d.entryAt within = .directory := by
  rw [walk_append] at h
  cases hfolder : d.walk here folder with
  | below within =>
    refine ⟨within, rfl, ?_⟩
    by_cases hwithin : d.entryAt within = .directory
    · exact hwithin
    · simp [hfolder, walk, hwithin] at h
  | above =>
    rw [hfolder] at h
    simp only [walk, if_neg hname] at h
    split at h <;> cases h
  | nowhere => simp [hfolder] at h
  | tooLong => simp [hfolder] at h

/-- A path that leads to a place leads to one also with a text added to its last step, unless that
makes it too long. -/
theorem exists_follow_extend {p : Path} {folder : List String} {name suffix : String}
    (hsteps : p.steps = folder ++ [name]) (hname : name ≠ "..") (hname' : name ++ suffix ≠ "..")
    (hnull : '\x00' ∉ suffix.toList) {place : List String} (h : d.follow p = .below place)
    (hlong : d.follow (p.extend suffix) ≠ .tooLong) : ∃ steps, d.follow (p.extend suffix) = .below steps := by
  obtain ⟨hclean, hwalk⟩ := walk_of_follow h
  rw [hsteps] at hwalk
  obtain ⟨within, hfolder, hwithin⟩ := folder_of_walk hname hwalk
  have hclean' : ¬ (p.extend suffix).toString.toList.contains '\x00' = true := by
    rw [Path.toString_extend hsteps]
    simp [hclean, hnull]
  have hwalk' : d.walk (startOf p) (p.extend suffix).steps =
      if nameLimit < (name ++ suffix).utf8ByteSize then .tooLong else .below (within ++ [name ++ suffix]) := by
    rw [Path.extend_append hsteps, walk_append, hfolder]
    exact walk_name hwithin hname'
  have hfollow : d.follow (p.extend suffix) = if pathLimit < (p.extend suffix).toString.utf8ByteSize then .tooLong
      else d.walk (startOf p) (p.extend suffix).steps := by
    rw [follow, if_neg hclean']
    rfl
  rw [hfollow, hwalk'] at hlong ⊢
  by_cases hfits : pathLimit < (p.extend suffix).toString.utf8ByteSize
  · simp [hfits] at hlong
  · by_cases hlimit : nameLimit < (name ++ suffix).utf8ByteSize
    · simp only [if_neg hfits, if_pos hlimit, ne_eq, not_true_eq_false] at hlong
    · exact ⟨_, by rw [if_neg hfits, if_neg hlimit]⟩

end Directory

end LoxLang.Cli
