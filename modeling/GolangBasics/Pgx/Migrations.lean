import GolangBasics.Errors
import GolangBasics.Strconv
import Mathlib.Data.List.Sort

/-! `LoadMigrations`: the migrations of a directory, in version order. -/
namespace GolangBasics.Pgx
open List

structure Migration where
  version : Int
  name : String
  file : String
  sql : String
  deriving DecidableEq

/-- An entry of the directory, with what `fs.ReadFile` makes of it. -/
structure DirEntry where
  name : String
  isDir : Bool
  body : Except Err String

/-- `path.Ext`: from the last dot of the last path element on. -/
def ext (name : String) : String :=
  let tail := name.toList.reverse.takeWhile fun c => c ≠ '.' ∧ c ≠ '/'
  if name.toList.reverse[tail.length]? = some '.' then String.ofList ('.' :: tail.reverse) else ""

/-- The two groups of `^(\d+)_([a-z0-9_]+)\.sql$`. -/
def migrationFile (name : String) : Option (String × String) :=
  let number := name.toList.takeWhile Char.isDigit
  match name.toList.dropWhile Char.isDigit with
  | '_' :: rest =>
    let stem := rest.take (rest.length - 4)
    if number ≠ [] ∧ stem ≠ [] ∧ rest.drop (rest.length - 4) = ".sql".toList ∧
        stem.all (fun c => c.isLower || c.isDigit || c = '_') then
      some (String.ofList number, String.ofList stem)
    else none
  | _ => none

def numError (number : String) (err : NumError) : Err :=
  .new (utf8 ("strconv.ParseInt: parsing " ++ quoted number ++ ": " ++ err.text))

/-- The loop over the entries; `seen` are the versions so far with their files. -/
def readEntries : List (Int × String) → List DirEntry → Except Err (List Migration)
  | _, [] => .ok []
  | seen, e :: rest =>
    if e.isDir || ext e.name ≠ ".sql" then readEntries seen rest
    else
      match migrationFile e.name with
      | none => .error (.new (utf8 ("pgx: migration " ++ e.name ++
          ": name must be NNN_snake_name.sql")))
      | some (number, name) =>
        match parseInt number with
        | .error err =>
          .error (.wrap ("pgx: migration " ++ e.name ++ ": version: ") (numError number err))
        | .ok v =>
          match seen.lookup v with
          | some prev => .error (.new (utf8 ("pgx: migrations " ++ prev ++ " and " ++ e.name ++
              " share version " ++ toString v)))
          | none =>
            match e.body with
            | .error err => .error (.wrap ("pgx: migration " ++ e.name ++ ": ") err)
            | .ok body =>
              (readEntries ((v, e.name) :: seen) rest).map (⟨v, name, e.name, body⟩ :: ·)

def loadMigrations (dir : Except Err (List DirEntry)) : Except Err (List Migration) :=
  match dir with
  | .error err => .error (.wrap "pgx: read migrations: " err)
  | .ok entries =>
    (readEntries [] entries).map (List.insertionSort fun a b => a.version ≤ b.version)

variable {seen : List (Int × String)} {ms : List Migration}

theorem readEntries_cons {e : DirEntry} {rest : List DirEntry}
    (h : readEntries seen (e :: rest) = .ok ms) :
    readEntries seen rest = .ok ms ∨ ∃ m later, ms = m :: later ∧ seen.lookup m.version = none ∧
      readEntries ((m.version, m.file) :: seen) rest = .ok later := by
  unfold readEntries at h
  split at h
  · exact .inl h
  · split at h
    · cases h
    · split at h
      · cases h
      · split at h
        · cases h
        · rename_i v _ _ hnew
          split at h
          · cases h
          · right
            cases hlater : readEntries ((v, e.name) :: seen) rest with
            | error err => simp [hlater, Except.map] at h
            | ok later =>
              simp only [hlater, Except.map, Except.ok.injEq] at h
              exact ⟨_, later, h.symm, hnew, hlater⟩

theorem lookup_cons_eq_none {v w : Int} {file : String} (h : ((w, file) :: seen).lookup v = none) :
    v ≠ w ∧ seen.lookup v = none := by
  by_cases hvw : v = w
  · simp [hvw] at h
  · have hbeq : (v == w) = false := by simpa using hvw
    simp only [lookup_cons, hbeq] at h
    exact ⟨hvw, h⟩

/-- Versions are read once, and none that was seen before. -/
theorem readEntries_versions {entries : List DirEntry} (h : readEntries seen entries = .ok ms) :
    (ms.map Migration.version).Nodup ∧ ∀ m ∈ ms, seen.lookup m.version = none := by
  induction entries generalizing seen ms with
  | nil =>
    cases h
    simp
  | cons e rest ih =>
    obtain h | ⟨m, later, rfl, hnew, hlater⟩ := readEntries_cons h
    · exact ih h
    · obtain ⟨hnodup, hfresh⟩ := ih hlater
      have hlook : ∀ l ∈ later, l.version ≠ m.version ∧ seen.lookup l.version = none :=
        fun l hl => lookup_cons_eq_none (hfresh l hl)
      constructor
      · rw [map_cons, nodup_cons]
        refine ⟨?_, hnodup⟩
        intro hmem
        obtain ⟨l, hl, heq⟩ := mem_map.mp hmem
        exact (hlook l hl).1 heq
      · intro l hl
        obtain rfl | hl := mem_cons.mp hl
        · exact hnew
        · exact (hlook l hl).2

/-- An accepted directory gives strictly rising versions. -/
theorem loadMigrations_sorted {dir : Except Err (List DirEntry)} (h : loadMigrations dir = .ok ms) :
    ms.Pairwise fun a b => a.version < b.version := by
  unfold loadMigrations at h
  cases dir with
  | error err => cases h
  | ok entries =>
    cases hread : readEntries [] entries with
    | error err => simp [hread, Except.map] at h
    | ok read =>
      simp only [hread, Except.map, Except.ok.injEq] at h
      subst h
      have hsorted : (read.insertionSort fun a b => a.version ≤ b.version).Pairwise
          fun a b => a.version ≤ b.version := by
        have : Std.Total fun a b : Migration => a.version ≤ b.version := ⟨fun a b => le_total _ _⟩
        have : IsTrans Migration fun a b => a.version ≤ b.version :=
          ⟨fun _ _ _ hab hbc => hab.trans hbc⟩
        exact pairwise_insertionSort _ _
      have hnodup : ((read.insertionSort fun a b => a.version ≤ b.version).map
          Migration.version).Nodup := by
        have hperm := (perm_insertionSort (fun a b : Migration => a.version ≤ b.version)
          read).map Migration.version
        exact hperm.nodup_iff.mpr (readEntries_versions hread).1
      exact hsorted.imp₂ (fun _ _ hle hne => lt_of_le_of_ne hle hne) (pairwise_map.mp hnodup)

end GolangBasics.Pgx
