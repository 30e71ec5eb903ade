import Mathlib.Logic.Function.Basic
import Mathlib.Tactic

/-!
# Patches of texts

An edit looks for a needle in a text and puts new text in its place. A script runs
edits over files and stops at the first that cannot be made. If every edit leaves
its own results alone, the script can be run again from wherever it stopped.
-/

namespace Patch

open scoped List

variable {α κ ε : Type*}

/-! ### Replacing a needle -/

section Replace

variable [DecidableEq α]

/-- Puts `new` in the place of the first `needle`. -/
def replaceFirst (needle new : List α) : List α → List α
  | [] => []
  | c :: cs =>
    if needle <+: c :: cs then new ++ (c :: cs).drop needle.length
    else c :: replaceFirst needle new cs

/-- Puts `new` in the place of every `needle`, from left to right. The next `skip` letters belong
to the needle replaced last. -/
def replaceFrom (needle new : List α) : ℕ → List α → List α
  | _, [] => []
  | 0, c :: cs =>
    if needle <+: c :: cs then new ++ replaceFrom needle new (needle.length - 1) cs
    else c :: replaceFrom needle new 0 cs
  | skip + 1, _ :: cs => replaceFrom needle new skip cs

/-- Puts `new` in the place of every `needle`; an empty needle is not meant. -/
def replaceAll (needle new text : List α) : List α := replaceFrom needle new 0 text

variable {needle new text : List α}

theorem replaceFirst_of_found (new : List α) (hne : needle ≠ []) (h : needle <:+: text) :
    ∃ before behind, text = before ++ (needle ++ behind) ∧
      replaceFirst needle new text = before ++ (new ++ behind) := by
  induction text with
  | nil => exact absurd (List.infix_nil.mp h) hne
  | cons c cs ih =>
    by_cases hhead : needle <+: c :: cs
    · obtain ⟨behind, hbehind⟩ := hhead
      refine ⟨[], behind, hbehind.symm, ?_⟩
      rw [replaceFirst, if_pos ⟨behind, hbehind⟩, ← hbehind, List.drop_left, List.nil_append]
    · have hrest := (List.infix_cons_iff.mp h).resolve_left hhead
      obtain ⟨before, behind, hcs, hnew⟩ := ih hrest
      refine ⟨c :: before, behind, by rw [hcs, List.cons_append], ?_⟩
      rw [replaceFirst, if_neg hhead, hnew, List.cons_append]

theorem replaceFirst_of_not_found (h : ¬ needle <:+: text) :
    replaceFirst needle new text = text := by
  induction text with
  | nil => rfl
  | cons c cs ih =>
    rw [List.infix_cons_iff, not_or] at h
    rw [replaceFirst, if_neg h.1, ih h.2]

/-- An edit that keeps the needle keeps every letter of the text. -/
theorem sublist_replaceFirst (hne : needle ≠ []) (h : needle <+ new) (text : List α) :
    text <+ replaceFirst needle new text := by
  by_cases hfound : needle <:+: text
  · obtain ⟨before, behind, htext, hnew⟩ := replaceFirst_of_found new hne hfound
    rw [hnew, htext]
    exact (List.Sublist.refl before).append (h.append (List.Sublist.refl behind))
  · rw [replaceFirst_of_not_found hfound]

theorem new_replaceFirst (new : List α) (hne : needle ≠ []) (h : needle <:+: text) :
    new <:+: replaceFirst needle new text := by
  obtain ⟨before, behind, -, hnew⟩ := replaceFirst_of_found new hne h
  rw [hnew]
  exact List.infix_append' _ _ _

theorem mem_replaceFirst {c : α} (h : c ∈ replaceFirst needle new text) : c ∈ text ∨ c ∈ new := by
  induction text with
  | nil => exact .inl h
  | cons d cs ih =>
    rw [replaceFirst] at h
    split_ifs at h
    · rcases List.mem_append.mp h with h | h
      · exact .inr h
      · exact .inl (List.mem_of_mem_drop h)
    · rcases List.mem_cons.mp h with rfl | h
      · exact .inl List.mem_cons_self
      · exact (ih h).imp_left (List.mem_cons_of_mem d)

theorem sublist_replaceFrom (hne : needle ≠ []) (h : needle <+ new) (text : List α) (skip : ℕ) :
    text.drop skip <+ replaceFrom needle new skip text := by
  induction text generalizing skip with
  | nil => simp
  | cons c cs ih =>
    cases skip with
    | succ skip =>
      rw [List.drop_succ_cons, replaceFrom]
      exact ih skip
    | zero =>
      rw [List.drop_zero, replaceFrom]
      split_ifs with hhead
      · obtain ⟨behind, hbehind⟩ := hhead
        obtain ⟨d, needle, rfl⟩ := List.exists_cons_of_ne_nil hne
        rw [List.cons_append, List.cons.injEq] at hbehind
        obtain ⟨rfl, rfl⟩ := hbehind
        have hrest := ih needle.length
        rw [List.drop_left] at hrest
        exact h.append hrest
      · exact (ih 0).cons_cons c

theorem sublist_replaceAll (hne : needle ≠ []) (h : needle <+ new) (text : List α) :
    text <+ replaceAll needle new text := sublist_replaceFrom hne h text 0

theorem new_replaceAll (new : List α) (hne : needle ≠ []) (h : needle <:+: text) :
    new <:+: replaceAll needle new text := by
  unfold replaceAll
  induction text with
  | nil => exact absurd (List.infix_nil.mp h) hne
  | cons c cs ih =>
    rw [replaceFrom]
    split_ifs with hhead
    · exact List.infix_append_left
    · exact List.infix_cons (ih ((List.infix_cons_iff.mp h).resolve_left hhead))

example : replaceAll [1, 1] [2] [0, 1, 1, 1] = [0, 2, 1] := by decide

theorem mem_replaceFrom {c : α} {skip : ℕ} (h : c ∈ replaceFrom needle new skip text) :
    c ∈ text ∨ c ∈ new := by
  induction text generalizing skip with
  | nil => exact .inl (by rwa [replaceFrom] at h)
  | cons d cs ih =>
    cases skip with
    | succ skip =>
      rw [replaceFrom] at h
      exact (ih h).imp_left (List.mem_cons_of_mem d)
    | zero =>
      rw [replaceFrom] at h
      split_ifs at h
      · rcases List.mem_append.mp h with h | h
        · exact .inr h
        · exact (ih h).imp_left (List.mem_cons_of_mem d)
      · rcases List.mem_cons.mp h with rfl | h
        · exact .inl List.mem_cons_self
        · exact (ih h).imp_left (List.mem_cons_of_mem d)

end Replace

/-! ### What an insertion keeps -/

section Insertion

variable {word front back added : List α}

/-- The word lies across the end of `front`. -/
def Straddles (word front back : List α) : Prop :=
  ∃ left right, left ≠ [] ∧ right ≠ [] ∧ word = left ++ right ∧ left <:+ front ∧ right <+: back

theorem infix_insert (hword : ¬ Straddles word front back) (h : word <:+: front ++ back) :
    word <:+: front ++ (added ++ back) := by
  rcases List.infix_append_iff_ne_nil.mp h with hfront | hback | hacross
  · exact List.infix_append_of_infix_left hfront
  · exact List.infix_append_of_infix_right (List.infix_append_of_infix_right hback)
  · exact absurd hacross hword

/-- A word without inner line breaks does not lie across the end of a line. -/
theorem not_straddles_line {newline : α} (hword : newline ∉ word.dropLast)
    (hfront : front.getLast? = some newline) : ¬ Straddles word front back := by
  rintro ⟨left, right, hleft, hright, rfl, ⟨before, rfl⟩, -⟩
  rw [List.getLast?_append_of_ne_nil _ hleft] at hfront
  apply hword
  rw [List.dropLast_append_of_ne_nil hright]
  exact List.mem_append_left _ (List.mem_of_getLast? hfront)

variable [DecidableEq α]

/-- No occurrence of the word can end inside an occurrence of `needle` it does not begin in. -/
def apart (word needle : List α) : Bool :=
  decide (word.length ≤ needle.length) &&
    word.tails.tail.all fun right => right.isEmpty || !right.isPrefixOf needle

theorem not_straddles_of_apart {needle behind : List α} (h : apart word needle = true) :
    ¬ Straddles word front (needle ++ behind) := by
  rintro ⟨left, right, hleft, hright, rfl, -, hprefix⟩
  obtain ⟨hlen, htails⟩ := Bool.and_eq_true_iff.mp h
  have hshort : right.length ≤ needle.length := by
    have hall := of_decide_eq_true hlen
    rw [List.length_append] at hall
    omega
  have hneedle : right <+: needle := List.prefix_of_prefix_length_le hprefix
    (List.prefix_append _ _) hshort
  obtain ⟨c, left, rfl⟩ := List.exists_cons_of_ne_nil hleft
  have hmem : right ∈ (c :: left ++ right).tails.tail := by
    rw [List.cons_append, List.tails_cons, List.tail_cons]
    exact (List.mem_tails _ _).mpr (List.suffix_append _ _)
  have hright' := List.all_eq_true.mp htails right hmem
  rw [List.isPrefixOf_iff_prefix.mpr hneedle] at hright'
  simp [hright] at hright'

variable {needle text : List α}

/-- What is put before the needle breaks no word that lies apart from the needle. -/
theorem infix_replaceFirst_before (added : List α) (hne : needle ≠ [])
    (hapart : apart word needle = true) (h : word <:+: text) :
    word <:+: replaceFirst needle (added ++ needle) text := by
  by_cases hfound : needle <:+: text
  · obtain ⟨before, behind, htext, hnew⟩ := replaceFirst_of_found (added ++ needle) hne hfound
    rw [htext] at h
    rw [hnew, List.append_assoc]
    exact infix_insert (not_straddles_of_apart hapart) h
  · rwa [replaceFirst_of_not_found hfound]

/-- What is put behind a needle that ends a line breaks no word without inner line breaks. -/
theorem infix_replaceFirst_behind {newline : α} (hne : needle ≠ [])
    (hneedle : needle.getLast? = some newline) (hword : newline ∉ word.dropLast)
    (h : word <:+: text) : word <:+: replaceFirst needle (needle ++ added) text := by
  by_cases hfound : needle <:+: text
  · obtain ⟨before, behind, htext, hnew⟩ := replaceFirst_of_found (needle ++ added) hne hfound
    rw [htext, ← List.append_assoc] at h
    rw [hnew, List.append_assoc, ← List.append_assoc]
    apply infix_insert (not_straddles_line hword _) h
    rw [List.getLast?_append_of_ne_nil _ hne, hneedle]
  · rwa [replaceFirst_of_not_found hfound]

end Insertion

/-! ### Edits of files -/

/-- An edit refuses a text, leaves it as it is, or gives the text to be written. -/
abbrev Edit (ε α : Type*) := List α → Except ε (Option (List α))

/-- The edit accepts the text and changes nothing in it. -/
def Edit.LeavesAlone (edit : Edit ε α) (text : List α) : Prop :=
  ∃ r, edit text = .ok r ∧ r.getD text = text

/-- The edit leaves alone what it has written. -/
def Edit.Settles (edit : Edit ε α) : Prop :=
  ∀ text new, edit text = .ok (some new) → edit.LeavesAlone new

/-- Why a run stops: a file is not there, or its edit refuses it. -/
inductive Fault (κ ε : Type*) where
  | missing (path : κ)
  | refused (path : κ) (error : ε)

def Fault.path : Fault κ ε → κ
  | .missing path | .refused path _ => path

/-- The files a run leaves, the paths it has written to, in order, and the fault it stops at. -/
structure Result (κ ε α : Type*) where
  files : κ → Option (List α)
  written : List κ
  fault : Option (Fault κ ε)

def Result.ending (result : Result κ ε α) : (κ → Option (List α)) × Option (Fault κ ε) :=
  (result.files, result.fault)

theorem files_of_ending {result result' : Result κ ε α} (h : result.ending = result'.ending) :
    result.files = result'.files := congrArg Prod.fst h

theorem fault_of_ending {result result' : Result κ ε α} (h : result.ending = result'.ending) :
    result.fault = result'.fault := congrArg Prod.snd h

section Runs

variable [DecidableEq κ]

/-- Makes the edits one after the other, each on the file of its path. -/
def run : List (κ × Edit ε α) → (κ → Option (List α)) → Result κ ε α
  | [], files => ⟨files, [], none⟩
  | (path, edit) :: rest, files =>
    match files path with
    | none => ⟨files, [], some (.missing path)⟩
    | some text =>
      match edit text with
      | .error error => ⟨files, [], some (.refused path error)⟩
      | .ok none => run rest files
      | .ok (some new) =>
        let result := run rest (Function.update files path (some new))
        { result with written := path :: result.written }

variable {edits : List (κ × Edit ε α)} {files : κ → Option (List α)} {path : κ}
  {edit : Edit ε α} {text : List α}

theorem run_missing (h : files path = none) :
    run ((path, edit) :: edits) files = ⟨files, [], some (.missing path)⟩ := by
  simp only [run, h]

theorem run_refused (h : files path = some text) {error : ε} (herror : edit text = .error error) :
    run ((path, edit) :: edits) files = ⟨files, [], some (.refused path error)⟩ := by
  simp only [run, h, herror]

theorem ending_run_applied (edits : List (κ × Edit ε α)) (h : files path = some text)
    {r : Option (List α)} (hok : edit text = .ok r) : (run ((path, edit) :: edits) files).ending =
      (run edits (Function.update files path (some (r.getD text)))).ending := by
  cases r with
  | none =>
    rw [Option.getD_none, ← h, Function.update_eq_self]
    simp only [run, h, hok]
  | some new =>
    simp only [run, h, hok]
    rfl

/-- What a run does first: it stops at once, or goes on with one file edited. -/
theorem run_cons_cases (path : κ) (edit : Edit ε α) (edits : List (κ × Edit ε α))
    (files : κ → Option (List α)) :
    (∃ fault : Fault κ ε, fault.path = path ∧
      run ((path, edit) :: edits) files = ⟨files, [], some fault⟩) ∨
    ∃ text r, files path = some text ∧ edit text = .ok r ∧
      (run ((path, edit) :: edits) files).ending =
        (run edits (Function.update files path (some (r.getD text)))).ending := by
  cases hfile : files path with
  | none => exact .inl ⟨.missing path, rfl, run_missing hfile⟩
  | some text =>
    cases hedit : edit text with
    | error error => exact .inl ⟨.refused path error, rfl, run_refused hfile hedit⟩
    | ok r => exact .inr ⟨text, r, rfl, hedit, ending_run_applied _ hfile hedit⟩

theorem run_frame (hpath : path ∉ edits.map Prod.fst) (files : κ → Option (List α)) :
    (run edits files).files path = files path := by
  induction edits generalizing files with
  | nil => rfl
  | cons entry edits ih =>
    rw [List.map_cons, List.mem_cons, not_or] at hpath
    rcases run_cons_cases entry.1 entry.2 edits files with
      ⟨fault, -, hrun⟩ | ⟨text, r, -, -, hrun⟩
    · rw [hrun]
    · rw [files_of_ending hrun, ih hpath.2, Function.update_of_ne hpath.1]

/-- A file a run does not look at can be exchanged before or after it. -/
theorem run_update (hpath : path ∉ edits.map Prod.fst) (files : κ → Option (List α))
    (t : Option (List α)) : (run edits (Function.update files path t)).ending =
      (Function.update (run edits files).files path t, (run edits files).fault) := by
  induction edits generalizing files with
  | nil => rfl
  | cons entry edits ih =>
    obtain ⟨head, edit⟩ := entry
    rw [List.map_cons, List.mem_cons, not_or] at hpath
    have hhead : Function.update files path t head = files head :=
      Function.update_of_ne (Ne.symm hpath.1) _ _
    cases hfile : files head with
    | none => rw [run_missing hfile, run_missing (hhead.trans hfile)]; rfl
    | some text =>
      cases hedit : edit text with
      | error error =>
        rw [run_refused hfile hedit, run_refused (hhead.trans hfile) hedit]
        rfl
      | ok r =>
        have hrun := ending_run_applied edits hfile hedit
        rw [ending_run_applied _ (hhead.trans hfile) hedit, Function.update_comm hpath.1,
          ih hpath.2, files_of_ending hrun, fault_of_ending hrun]

theorem ending_run_append {done rest : List (κ × Edit ε α)} (h : (run done files).fault = none) :
    (run (done ++ rest) files).ending = (run rest (run done files).files).ending := by
  induction done generalizing files with
  | nil => rfl
  | cons entry done ih =>
    obtain ⟨head, edit⟩ := entry
    rcases run_cons_cases head edit done files with
      ⟨fault, -, hrun⟩ | ⟨text, r, hfile, hedit, hrun⟩
    · rw [hrun] at h
      cases h
    · rw [fault_of_ending hrun] at h
      rw [List.cons_append, ending_run_applied _ hfile hedit, ih h, files_of_ending hrun]

/-- A run that stops has made all edits up to the path it stops at. -/
theorem run_stops {fault : Fault κ ε} (h : (run edits files).fault = some fault) :
    ∃ done edit rest, edits = done ++ (fault.path, edit) :: rest ∧
      (run done files).fault = none ∧ (run edits files).files = (run done files).files := by
  induction edits generalizing files with
  | nil => cases h
  | cons entry edits ih =>
    obtain ⟨head, edit⟩ := entry
    rcases run_cons_cases head edit edits files with
      ⟨fault', rfl, hrun⟩ | ⟨text, r, hfile, hedit, hrun⟩
    · rw [hrun] at h ⊢
      obtain rfl := Option.some.inj h
      exact ⟨[], edit, edits, rfl, rfl, rfl⟩
    · rw [fault_of_ending hrun] at h
      obtain ⟨done, edit', rest, rfl, hdone, hfiles⟩ := ih h
      have happlied := ending_run_applied done hfile hedit
      refine ⟨(head, edit) :: done, edit', rest, rfl, (fault_of_ending happlied).trans hdone, ?_⟩
      rw [files_of_ending hrun, hfiles, files_of_ending happlied]

/-! ### Running again -/

/-- Where the files of its edits are as a completed run has left them, a run changes nothing. -/
theorem run_again (hsettles : ∀ entry ∈ edits, entry.2.Settles)
    (hpaths : (edits.map Prod.fst).Nodup) (h : (run edits files).fault = none)
    {files' : κ → Option (List α)}
    (hsame : ∀ path ∈ edits.map Prod.fst, files' path = (run edits files).files path) :
    (run edits files').ending = (files', none) := by
  induction edits generalizing files with
  | nil => rfl
  | cons entry edits ih =>
    obtain ⟨head, edit⟩ := entry
    rw [List.map_cons, List.nodup_cons] at hpaths
    rw [List.forall_mem_cons] at hsettles
    rw [List.map_cons, List.forall_mem_cons] at hsame
    rcases run_cons_cases head edit edits files with
      ⟨fault, -, hrun⟩ | ⟨text, r, hfile, hedit, hrun⟩
    · rw [hrun] at h
      cases h
    · rw [fault_of_ending hrun] at h
      rw [files_of_ending hrun] at hsame
      have hhead : files' head = some (r.getD text) := by
        rw [hsame.1, run_frame hpaths.1, Function.update_self]
      have halone : edit.LeavesAlone (r.getD text) := by
        cases r with
        | none => exact ⟨none, hedit, rfl⟩
        | some new => exact hsettles.1 text new hedit
      obtain ⟨r', hedit', hr'⟩ := halone
      rw [ending_run_applied _ hhead hedit', hr', ← hhead, Function.update_eq_self]
      exact ih hsettles.2 hpaths.2 h hsame.2

/-- Once the file a run has stopped at is exchanged, running again ends as if it had been
exchanged from the start. -/
theorem run_resumes (hsettles : ∀ entry ∈ edits, entry.2.Settles)
    (hpaths : (edits.map Prod.fst).Nodup) {fault : Fault κ ε}
    (h : (run edits files).fault = some fault) (t : Option (List α)) :
    (run edits (Function.update (run edits files).files fault.path t)).ending =
      (run edits (Function.update files fault.path t)).ending := by
  obtain ⟨done, edit, rest, rfl, hdone, hfiles⟩ := run_stops h
  rw [List.map_append, List.map_cons, List.nodup_append] at hpaths
  have hfault : fault.path ∉ done.map Prod.fst :=
    fun hmem => hpaths.2.2 _ hmem _ List.mem_cons_self rfl
  have hsame : ∀ path ∈ done.map Prod.fst,
      Function.update (run done files).files fault.path t path = (run done files).files path :=
    fun path hpath => Function.update_of_ne (ne_of_mem_of_not_mem hpath hfault) _ _
  have hagain := run_again (fun entry hentry => hsettles entry (List.mem_append_left _ hentry))
    hpaths.1 hdone hsame
  have hfresh := run_update hfault files t
  rw [hdone] at hfresh
  rw [hfiles, ending_run_append (congrArg Prod.snd hagain),
    ending_run_append (congrArg Prod.snd hfresh)]
  exact congrArg (fun files => (run _ files).ending)
    ((congrArg Prod.fst hagain).trans (congrArg Prod.fst hfresh).symm)

/-- A run after a run ends as the first one. -/
theorem run_repeats (hsettles : ∀ entry ∈ edits, entry.2.Settles)
    (hpaths : (edits.map Prod.fst).Nodup) (files : κ → Option (List α)) :
    (run edits (run edits files).files).ending = (run edits files).ending := by
  cases h : (run edits files).fault with
  | none =>
    rw [run_again hsettles hpaths h fun _ _ => rfl, Result.ending, h]
  | some fault =>
    have hresume := run_resumes hsettles hpaths h (files fault.path)
    obtain ⟨done, edit, rest, rfl, hdone, hfiles⟩ := run_stops h
    rw [List.map_append, List.map_cons, List.nodup_append] at hpaths
    have hsame : (run (done ++ (fault.path, edit) :: rest) files).files fault.path =
        files fault.path := by
      rw [hfiles]
      exact run_frame (fun hmem => hpaths.2.2 _ hmem _ List.mem_cons_self rfl) files
    rwa [Function.update_eq_self, ← hsame, Function.update_eq_self] at hresume

/-! ### What a run leaves -/

/-- A file is as before, or as its edit has written it. -/
theorem run_file (hpaths : (edits.map Prod.fst).Nodup) (files : κ → Option (List α)) (path : κ) :
    (run edits files).files path = files path ∨
      ∃ edit text new, (path, edit) ∈ edits ∧ files path = some text ∧
        edit text = .ok (some new) ∧ (run edits files).files path = some new := by
  induction edits generalizing files with
  | nil => exact .inl rfl
  | cons entry edits ih =>
    obtain ⟨head, edit⟩ := entry
    rw [List.map_cons, List.nodup_cons] at hpaths
    rcases run_cons_cases head edit edits files with
      ⟨fault, -, hrun⟩ | ⟨text, r, hfile, hedit, hrun⟩
    · exact .inl (by rw [hrun])
    · rw [files_of_ending hrun]
      by_cases heq : path = head
      · subst heq
        rw [run_frame hpaths.1, Function.update_self]
        cases r with
        | none => exact .inl hfile.symm
        | some new => exact .inr ⟨edit, text, new, List.mem_cons_self, hfile, hedit, rfl⟩
      · rcases ih hpaths.2 (Function.update files head (some (r.getD text))) with
          hsame | ⟨edit', text', new, hmem, hfile', hedit', hnew⟩
        · exact .inl (hsame.trans (Function.update_of_ne heq _ _))
        · rw [Function.update_of_ne heq] at hfile'
          exact .inr ⟨edit', text', new, List.mem_cons_of_mem _ hmem, hfile', hedit', hnew⟩

/-- A completed run has made every edit. -/
theorem run_completed (hpaths : (edits.map Prod.fst).Nodup) (h : (run edits files).fault = none) :
    ∀ entry ∈ edits, ∃ text r, files entry.1 = some text ∧ entry.2 text = .ok r ∧
      (run edits files).files entry.1 = some (r.getD text) := by
  induction edits generalizing files with
  | nil => exact List.forall_mem_nil _
  | cons entry edits ih =>
    obtain ⟨head, edit⟩ := entry
    rw [List.map_cons, List.nodup_cons] at hpaths
    rcases run_cons_cases head edit edits files with
      ⟨fault, -, hrun⟩ | ⟨text, r, hfile, hedit, hrun⟩
    · rw [hrun] at h
      cases h
    · rw [fault_of_ending hrun] at h
      rw [files_of_ending hrun, List.forall_mem_cons]
      refine ⟨⟨text, r, hfile, hedit, ?_⟩, fun other hother => ?_⟩
      · rw [run_frame hpaths.1, Function.update_self]
      · have hne : other.1 ≠ head :=
          ne_of_mem_of_not_mem (List.mem_map_of_mem hother) hpaths.1
        obtain ⟨text', r', hfile', hedit', hnew⟩ := ih hpaths.2 h other hother
        rw [Function.update_of_ne hne] at hfile'
        exact ⟨text', r', hfile', hedit', hnew⟩

/-- Where every file is there and its edit accepts it, a run completes. -/
theorem run_completes (hpaths : (edits.map Prod.fst).Nodup)
    (h : ∀ entry ∈ edits, ∃ text r, files entry.1 = some text ∧ entry.2 text = .ok r) :
    (run edits files).fault = none := by
  induction edits generalizing files with
  | nil => rfl
  | cons entry edits ih =>
    obtain ⟨head, edit⟩ := entry
    rw [List.map_cons, List.nodup_cons] at hpaths
    rw [List.forall_mem_cons] at h
    obtain ⟨⟨text, r, hfile, hedit⟩, hrest⟩ := h
    rw [fault_of_ending (ending_run_applied _ hfile hedit)]
    apply ih hpaths.2
    intro other hother
    rw [Function.update_of_ne (ne_of_mem_of_not_mem (List.mem_map_of_mem hother) hpaths.1)]
    exact hrest other hother

end Runs

end Patch
