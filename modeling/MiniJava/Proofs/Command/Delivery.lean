import Mathlib
import MiniJava.Command.Run
import MiniJava.Proofs.Assembly.Emission
import MiniJava.Proofs.Command.Siblings
import MiniJava.Proofs.Grammar.Names
/-!
# What runs leave behind

Whatever goes wrong before the first file is written, a run leaves all files as they were.  The unit for C is one file, but
the listings go to a file each, and a run breaks off at the first that cannot be written, with those before it written
already (`Session.BreaksOff`).  All of them go to one directory, so that only the name of a file keeps it from being written
after another (`Assembly.Listing.refuses_of_takes`).  No other run that fails changes a file (`changes_of_failed_run`).
-/
namespace MiniJava

/-! ## Outputs -/

/-- What becomes of the files when an output is written. -/
def Output.deliver (t : FileTree) (output : Output) : Except FileError FileTree :=
  match output.path with
  | none => .ok t
  | some path => t.write path output.text

/-- Whether an output can be written. -/
def FileTree.Takes (t : FileTree) (output : Output) : Prop := ∃ u, output.deliver t = .ok u

/-- An output is refused for the name of its file: a directory has that name, or it is too long. -/
def FileTree.Refuses (t : FileTree) (output : Output) : Prop :=
  output.deliver t = .error .isDirectory ∨ output.deliver t = .error .nameTooLong

theorem FileTree.Refuses.not_takes {t : FileTree} {output : Output} (h : t.Refuses output) : ¬ t.Takes output := by
  rintro ⟨u, hu⟩
  rcases h with h | h <;> cases h.symm.trans hu

section

variable {output : Output} {outputs done later : List Output} {t u left : FileTree}

theorem takes_of_sameDirectories (h : t.SameDirectories u) (htakes : t.Takes output) : u.Takes output := by
  obtain ⟨v, hv⟩ := htakes
  unfold FileTree.Takes
  unfold Output.deliver at hv ⊢
  split at hv
  · exact ⟨u, rfl⟩
  · exact FileTree.write_of_sameDirectories h hv

theorem sameDirectories_of_deliver (h : output.deliver t = .ok u) : t.SameDirectories u := by
  unfold Output.deliver at h
  split at h
  · cases h
    exact fun _ => Iff.rfl
  · exact FileTree.sameDirectories_of_write h

theorem node?_of_deliver (h : output.deliver t = .ok u) (place : List String) :
    u.node? place = t.node? place ∨ u.node? place = some (.file output.text) := by
  unfold Output.deliver at h
  split at h
  · cases h
    exact .inl rfl
  · exact FileTree.node?_of_write h place

theorem delivered_cons : (output :: outputs).foldlM Output.deliver t = .ok left ↔
    ∃ u, output.deliver t = .ok u ∧ outputs.foldlM Output.deliver u = .ok left := by
  rw [List.foldlM_cons, bind_eq_ok]

theorem sameDirectories_of_delivered : ∀ {outputs : List Output} {t left : FileTree},
    outputs.foldlM Output.deliver t = .ok left → t.SameDirectories left
  | [], _, _, h => by
    cases h
    exact fun _ => Iff.rfl
  | _ :: _, _, _, h => by
    obtain ⟨u, hu, h⟩ := delivered_cons.1 h
    exact fun place => (sameDirectories_of_deliver hu place).trans (sameDirectories_of_delivered h place)

/-- Outputs that are all written could all be written from the beginning. -/
theorem takes_of_delivered : ∀ {outputs : List Output} {t left : FileTree}, outputs.foldlM Output.deliver t = .ok left →
    ∀ output ∈ outputs, t.Takes output
  | [], _, _, _ => nofun
  | output :: outputs, t, left, h => by
    obtain ⟨u, hu, h⟩ := delivered_cons.1 h
    have hback := (sameDirectories_of_deliver hu).symm
    exact List.forall_mem_cons.2 ⟨⟨u, hu⟩, fun o ho => takes_of_sameDirectories hback (takes_of_delivered h o ho)⟩

/-- **What has changed holds the whole text of an output.** -/
theorem node?_of_delivered : ∀ {outputs : List Output} {t left : FileTree}, outputs.foldlM Output.deliver t = .ok left →
    ∀ place, left.node? place = t.node? place ∨ ∃ output ∈ outputs, left.node? place = some (.file output.text)
  | [], _, _, h, _ => by
    cases h
    exact .inl rfl
  | output :: outputs, t, left, h, place => by
    obtain ⟨u, hu, h⟩ := delivered_cons.1 h
    rcases node?_of_delivered h place with hsame | ⟨later, hlater, htext⟩
    · rw [hsame]
      exact (node?_of_deliver hu place).imp id fun htext => ⟨output, List.mem_cons_self, htext⟩
    · exact .inr ⟨later, List.mem_cons_of_mem _ hlater, htext⟩

end

/-- **What writing outputs one after another comes to**: all of them are written, or those before the first that cannot
be. -/
inductive Delivers (outputs : List Output) (t : FileTree) : Except Trouble Unit → FileTree → Prop
  | whole {left : FileTree} : outputs.foldlM Output.deliver t = .ok left → Delivers outputs t (.ok ()) left
  | broken {done later : List Output} {failed : Output} {left : FileTree} {trouble : Trouble} :
      outputs = done ++ failed :: later → done.foldlM Output.deliver t = .ok left → ¬ t.Takes failed →
      Delivers outputs t (.error trouble) left

namespace Delivers

variable {output failed : Output} {outputs done later : List Output} {t u left : FileTree} {r : Except Trouble Unit}

theorem cons (hu : output.deliver t = .ok u) (h : Delivers outputs u r left) : Delivers (output :: outputs) t r left := by
  cases h with
  | whole h => exact .whole (delivered_cons.2 ⟨u, hu, h⟩)
  | broken hsplit hdone hfailed =>
    refine .broken (congrArg _ hsplit) (delivered_cons.2 ⟨u, hu, hdone⟩) fun htakes => hfailed ?_
    exact takes_of_sameDirectories (sameDirectories_of_deliver hu) htakes

/-- **The first output that cannot be written ends the delivery.** -/
theorem eq_of_broken (h : Delivers (done ++ failed :: later) t r left) (hdone : done.foldlM Output.deliver t = .ok u)
    (hfailed : ¬ t.Takes failed) : (∃ trouble, r = .error trouble) ∧ left = u := by
  cases h with
  | whole h =>
    exact absurd (takes_of_delivered h failed (List.mem_append_right _ List.mem_cons_self)) hfailed
  | broken hsplit hdone' hfailed' =>
    refine ⟨⟨_, rfl⟩, ?_⟩
    rcases List.append_eq_append_iff.1 hsplit with ⟨between, rfl, hbetween⟩ | ⟨between, rfl, hbetween⟩
    · cases between with
      | nil =>
        rw [List.append_nil] at hdone'
        exact Except.ok.inj (hdone'.symm.trans hdone)
      | cons first between =>
        cases hbetween
        exact absurd (takes_of_delivered hdone' _ (List.mem_append_right _ List.mem_cons_self)) hfailed
    · cases between with
      | nil =>
        rw [List.append_nil] at hdone
        exact Except.ok.inj (hdone'.symm.trans hdone)
      | cons first between =>
        cases hbetween
        exact absurd (takes_of_delivered hdone _ (List.mem_append_right _ List.mem_cons_self)) hfailed'

end Delivers

/-! ## The files of listings -/

/-- **Listings are those of classes with names that the lexer can produce.** -/
theorem Source.identifiers_of_listings {s : Source} {dump : Dump} {ls : List Assembly.Listing}
    (h : (s.listings dump).result = .ok ls) : ∀ l ∈ ls, IsIdentifier l.name := by
  obtain ⟨e, he, hls⟩ := Source.listings_eq_ok.1 h
  obtain ⟨p, hp, he⟩ := Source.elaborated_eq_ok.1 he
  have hnames : ls.map (·.name) = p.main.name.val :: p.classes.map (·.name.val) :=
    (Assembly.names_of_lowerProgram hls).trans (Program.names_of_unmark_eq (elaborate_sound he).2)
  have hidentifiers := Source.identifiers_of_classes hp
  rw [← hnames] at hidentifiers
  exact List.forall_mem_map.1 hidentifiers

namespace Assembly.Listing

variable {directory : String} {first l : Listing} {t : FileTree}

theorem output_of_isDash (hdash : Path.isDash directory) (l : Listing) : l.output directory = ⟨none, l.text⟩ := if_pos hdash

theorem output_of_not_isDash (hdash : ¬ Path.isDash directory) (hl : IsIdentifier l.name) :
    l.output directory = ⟨some (Path.join directory (l.name ++ ".j")), l.text⟩ := by
  have hname : Path.IsEntryName (l.name ++ ".j") := hl.isEntryName (by decide)
  rw [output, if_neg hdash, Output.toPath, if_neg (Path.not_isDash_join hname (hl.append_ne ".j" rfl) directory)]

/-- **The files of listings go to one directory**, so that a later one is refused for its name alone. -/
theorem refuses_of_takes (hfirst : IsIdentifier first.name) (hl : IsIdentifier l.name)
    (htakes : t.Takes (first.output directory)) (hnot : ¬ t.Takes (l.output directory)) :
    t.Refuses (l.output directory) := by
  by_cases hdash : Path.isDash directory
  · rw [output_of_isDash hdash] at hnot
    exact absurd ⟨t, rfl⟩ hnot
  · rw [output_of_not_isDash hdash hfirst] at htakes
    rw [output_of_not_isDash hdash hl] at hnot ⊢
    obtain ⟨u, hu⟩ := htakes
    cases he : t.write (Path.join directory (l.name ++ ".j")) l.text with
    | ok v => exact absurd ⟨v, he⟩ hnot
    | error e =>
      rcases FileTree.write_beside (hfirst.isEntryName (by decide)) (hl.isEntryName (by decide)) hu he with rfl | rfl
      · exact .inl he
      · exact .inr he

end Assembly.Listing

namespace Session

variable {s : Session} {o : Options} {outputs : List Output} {source : Source}

theorem run_bind {α β : Type} (x : StateM Session α) (f : α → StateM Session β) (s : Session) :
    (x >>= f).run s = (f (x.run s).1).run (x.run s).2 := rfl

theorem run_writeFile (path text : String) (s : Session) : (host.writeFile path text).run s =
    match s.tree.write path text with
    | .ok tree => (.ok (), { s with tree := tree })
    | .error e => (.error e, s) := by
  have hrun : (host.writeFile path text).run s = StateT.run (match s.tree.write path text with
      | .ok tree => do
        modify fun s => { s with tree := tree }
        return .ok ()
      | .error e => return .error e : StateM Session (Except FileError Unit)) s := rfl
  rw [hrun]
  cases s.tree.write path text <;> rfl

/-- Writing an output makes of the files what its delivery does, or fails as that does and leaves them alone. -/
theorem run_write (output : Output) (s : Session) :
    (∃ s', (write host output).run s = (.ok (), s') ∧ output.deliver s.tree = .ok s'.tree) ∨
      ∃ trouble, (write host output).run s = (.error trouble, s) ∧ ¬ s.tree.Takes output := by
  obtain ⟨path, text⟩ := output
  cases path with
  | none => exact .inl ⟨_, rfl, rfl⟩
  | some path =>
    have hrun : (write host ⟨some path, text⟩).run s =
        (((host.writeFile path text).run s).1.mapError fun e => ⟨"Failed to write: " ++ path, some e⟩,
          ((host.writeFile path text).run s).2) := rfl
    rw [run_writeFile] at hrun
    cases h : s.tree.write path text with
    | ok tree =>
      rw [h] at hrun
      exact .inl ⟨_, hrun, h⟩
    | error e =>
      rw [h] at hrun
      exact .inr ⟨_, hrun, fun ⟨_, hu⟩ => by cases h.symm.trans hu⟩

theorem delivers_writeAll : ∀ {outputs : List Output} {s s' : Session} {r : Except Trouble Unit},
    (writeAll host outputs).run s = (r, s') → Delivers outputs s.tree r s'.tree
  | [], _, _, _, h => by
    cases h
    exact .whole rfl
  | output :: outputs, s, s', r, h => by
    rw [writeAll, run_bind] at h
    rcases run_write output s with ⟨s₁, hwrite, hdeliver⟩ | ⟨trouble, hwrite, htakes⟩
    · rw [hwrite] at h
      exact .cons hdeliver (delivers_writeAll h)
    · rw [hwrite] at h
      cases h
      have hsplit : output :: outputs = [] ++ output :: outputs := rfl
      exact .broken hsplit rfl htakes

/-! ## Compiling -/

/-- Reading the source changes nothing. -/
theorem run_readSource (o : Options) (s : Session) :
    (readSource host o).run s = (((readSource host o).run s).1, s) := by
  unfold readSource
  split <;> rfl

/-- The session when a text has been printed on the standard error. -/
def warned (s : Session) (text : String) : Session := { s with warnings := s.warnings ++ text }

/-- A source that has outputs is compiled by writing them. -/
theorem run_compile (hsource : ((readSource host o).run s).1 = .ok source)
    (houtputs : (o.outputs source).result = .ok outputs) :
    (compile host o).run s = (writeAll host outputs).run (s.warned (o.shown (o.outputs source).log)) := by
  rw [compile, run_bind, run_readSource, hsource]
  dsimp only
  rw [houtputs]
  rfl

theorem delivers_compile (hsource : ((readSource host o).run s).1 = .ok source)
    (houtputs : (o.outputs source).result = .ok outputs) :
    Delivers outputs s.tree ((compile host o).run s).1 ((compile host o).run s).2.tree := by
  have hwrite : (writeAll host outputs).run (s.warned (o.shown (o.outputs source).log)) =
      (((compile host o).run s).1, ((compile host o).run s).2) := (run_compile hsource houtputs).symm
  have hdelivers := delivers_writeAll hwrite
  exact hdelivers

/-- Compiling leaves all files alone, or there is a source that has outputs. -/
theorem tree_compile_or (o : Options) (s : Session) : ((compile host o).run s).2.tree = s.tree ∨
    ∃ source outputs, ((readSource host o).run s).1 = .ok source ∧ (o.outputs source).result = .ok outputs := by
  rw [compile, run_bind, run_readSource]
  cases hsource : ((readSource host o).run s).1 with
  | error trouble => exact .inl rfl
  | ok source =>
    cases houtputs : (o.outputs source).result with
    | error failure =>
      refine .inl ?_
      dsimp only
      rw [houtputs]
      rfl
    | ok outputs => exact .inr ⟨source, outputs, rfl, houtputs⟩

/-! ## Runs -/

/-- A run fails just if compiling does, and changes no files but what compiling changes. -/
theorem run_of_compile {arguments : List String} (h : Request.ofArguments? arguments = some (.compile o)) :
    ((s.run arguments).1 ≠ 0 ↔ ∃ trouble, ((compile host o).run s).1 = .error trouble) ∧
      (s.run arguments).2.tree = ((compile host o).run s).2.tree := by
  rw [Session.run, MiniJava.run, h]
  dsimp only
  rw [run_bind]
  cases ((compile host o).run s).1 with
  | ok u => exact ⟨⟨fun h => absurd rfl h, nofun⟩, rfl⟩
  | error trouble => exact ⟨⟨fun _ => ⟨trouble, rfl⟩, fun _ => Nat.one_ne_zero⟩, rfl⟩

/-- A run that fails without compiling leaves all files alone. -/
theorem tree_of_no_compile {arguments : List String} (h : ∀ o, Request.ofArguments? arguments ≠ some (.compile o)) :
    (s.run arguments).2.tree = s.tree := by
  rw [Session.run, MiniJava.run]
  cases hrequest : Request.ofArguments? arguments with
  | none => rfl
  | some request =>
    cases request with
    | version => rfl
    | compile o => exact absurd hrequest (h o)

/-- **The run breaks off its delivery** when the outputs of `done` are written, and leaves the files of `left`. -/
structure BreaksOff (s : Session) (o : Options) (done : List Output) (left : FileTree) : Prop where
  target : o.target = .assembly
  /-- There are listings for the source.  Those before one of them can be written to their files, and that one is refused
  for the name of its file, as the files are at the beginning. -/
  listings : ∃ source listings refused later, ((readSource host o).run s).1 = .ok source ∧
    (source.listings o.dump).result = .ok listings ∧
    listings.map (Assembly.Listing.output (o.output.getD ".")) = done ++ refused :: later ∧
    (∀ output ∈ done, s.tree.Takes output) ∧ s.tree.Refuses refused
  delivered : done.foldlM Output.deliver s.tree = .ok left
  /-- What is made or changed is not left half done. -/
  whole : ∀ place, left.node? place = s.tree.node? place ∨ ∃ output ∈ done, left.node? place = some (.file output.text)
  changed : ¬ s.tree.Alike left

/-- The unit for C is one output. -/
theorem exists_of_outputs_c (ht : o.target = .c) (h : (o.outputs source).result = .ok outputs) :
    ∃ output, outputs = [output] := by
  unfold Options.outputs at h
  rw [ht] at h
  simp only [Logged.result_bind, Logged.result_pure, bind_eq_ok, Except.ok.injEq] at h
  obtain ⟨unit, -, rfl⟩ := h
  exact ⟨_, rfl⟩

theorem outputs_assembly (ht : o.target = .assembly) : (o.outputs source).result = .ok outputs ↔
    ∃ listings, (source.listings o.dump).result = .ok listings ∧
      listings.map (Assembly.Listing.output (o.output.getD ".")) = outputs := by
  unfold Options.outputs
  rw [ht]
  simp only [Logged.result_bind, Logged.result_pure, bind_eq_ok, Except.ok.injEq]

/-- An output that is not the first of the listings and cannot be written is refused for its name. -/
theorem refuses_of_split {source : Source} {dump : Dump} {listings : List Assembly.Listing} {directory : String}
    {t : FileTree} {first failed : Output} {done later : List Output} (h : (source.listings dump).result = .ok listings)
    (hsplit : listings.map (Assembly.Listing.output directory) = first :: done ++ failed :: later)
    (htakes : t.Takes first) (hnot : ¬ t.Takes failed) : t.Refuses failed := by
  have hlisting : ∀ output ∈ first :: done ++ failed :: later, ∃ l : Assembly.Listing, IsIdentifier l.name ∧
      l.output directory = output := by
    rw [← hsplit]
    exact List.forall_mem_map.2 fun l hl => ⟨l, Source.identifiers_of_listings h l hl, rfl⟩
  obtain ⟨l₁, hl₁, rfl⟩ := hlisting first List.mem_cons_self
  obtain ⟨l₂, hl₂, rfl⟩ := hlisting failed (List.mem_append_right _ List.mem_cons_self)
  exact Assembly.Listing.refuses_of_takes hl₁ hl₂ htakes hnot

/-- A delivery that is not finished and has changed something is one of listings. -/
theorem exists_breaksOff {trouble : Trouble} {left : FileTree} (hsource : ((readSource host o).run s).1 = .ok source)
    (houtputs : (o.outputs source).result = .ok outputs) (h : Delivers outputs s.tree (.error trouble) left)
    (hchanged : ¬ s.tree.Alike left) : ∃ done, s.BreaksOff o done left := by
  cases h with
  | @broken done later failed _ _ hsplit hdone hfailed =>
    cases done with
    | nil =>
      cases hdone
      exact absurd (FileTree.Alike.refl s.tree) hchanged
    | cons first done =>
      cases ht : o.target with
      | c =>
        obtain ⟨output, rfl⟩ := exists_of_outputs_c ht houtputs
        simp at hsplit
      | assembly =>
        obtain ⟨listings, hlistings, rfl⟩ := (outputs_assembly ht).1 houtputs
        have htakes := takes_of_delivered hdone
        have hrefuses := refuses_of_split hlistings hsplit (htakes first List.mem_cons_self) hfailed
        exact ⟨first :: done, ht, ⟨source, listings, failed, later, hsource, hlistings, hsplit, htakes, hrefuses⟩, hdone,
          node?_of_delivered hdone, hchanged⟩

/-- What breaks off fails, and leaves what it was going to leave. -/
theorem BreaksOff.run {arguments : List String} {done : List Output} {left : FileTree} (h : s.BreaksOff o done left)
    (ho : Request.ofArguments? arguments = some (.compile o)) :
    (s.run arguments).1 ≠ 0 ∧ (s.run arguments).2.tree = left := by
  obtain ⟨source, listings, refused, later, hsource, hlistings, hsplit, -, hrefuses⟩ := h.listings
  have houtputs := (outputs_assembly h.target).2 ⟨listings, hlistings, hsplit⟩
  obtain ⟨htrouble, hleft⟩ := (delivers_compile hsource houtputs).eq_of_broken h.delivered hrefuses.not_takes
  obtain ⟨hfails, htree⟩ := run_of_compile (s := s) ho
  exact ⟨hfails.2 htrouble, htree.trans hleft⟩

end Session

/-- **When a failed run leaves something behind.**  Whatever the arguments, the source and the files, a run that fails has
made or changed files just if it breaks off its delivery, and the files are as it leaves them then: the run is one for
listings, and from the beginning there is a directory where the file of one of them has to go, or its name is too long,
while the files of those before it can be written and have been.  So nothing is left of a run that fails before its first
write, of one for C, and of one that cannot write its first file. -/
theorem changes_of_failed_run (s : Session) (arguments : List String) (left : FileTree) :
    ((s.run arguments).1 ≠ 0 ∧ (s.run arguments).2.tree = left ∧ ¬ s.tree.Alike left) ↔ ∃ o done,
      Request.ofArguments? arguments = some (.compile o) ∧ s.BreaksOff o done left := by
  constructor
  · rintro ⟨hstatus, rfl, hchanged⟩
    have hrequest : ∃ o, Request.ofArguments? arguments = some (.compile o) := by
      by_contra hnone
      exact hchanged (Session.tree_of_no_compile (fun o ho => hnone ⟨o, ho⟩) ▸ FileTree.Alike.refl s.tree)
    obtain ⟨o, ho⟩ := hrequest
    obtain ⟨hfails, htree⟩ := Session.run_of_compile (s := s) ho
    obtain ⟨trouble, htrouble⟩ := hfails.1 hstatus
    rw [htree] at hchanged ⊢
    rcases Session.tree_compile_or o s with hsame | ⟨source, outputs, hsource, houtputs⟩
    · exact absurd (hsame ▸ FileTree.Alike.refl s.tree) hchanged
    · have hdelivers := Session.delivers_compile hsource houtputs
      rw [htrouble] at hdelivers
      obtain ⟨done, hbreaks⟩ := Session.exists_breaksOff hsource houtputs hdelivers hchanged
      exact ⟨o, done, ho, hbreaks⟩
  · rintro ⟨o, done, ho, hbreaks⟩
    obtain ⟨hstatus, hleft⟩ := hbreaks.run ho
    exact ⟨hstatus, hleft, hbreaks.changed⟩

/-! ## A directory in the way -/

namespace Sample

/-- A source next to a directory where the file of a listing may have to go. -/
def obstructed (source : String) : FileTree := .put (.put .empty ["A.java"] (.file source)) ["A.j"] .directory

def twoClasses : String :=
  "class Main { public static void main(String[] args) { System.out.println(0); } } class A { }"

theorem listings_twoClasses : ∃ code l, ((Source.ofText "A.java" twoClasses).listings ⟨false, false⟩).result =
    .ok [.main "Main" code, .cls l] ∧ l.name = "A" := by
  obtain ⟨p, e, code, l, hp, he, hls, hl⟩ : ∃ p e code l, (Source.ofText "A.java" twoClasses).program.result = .ok p ∧
    (p.elaborate ⟨false, false⟩).result = .ok e ∧
    (Assembly.lowerProgram e.program).result = .ok [.main "Main" code, .cls l] ∧ l.name = "A" :=
    ⟨_, _, _, _, by cbv, by rfl, by rfl, rfl⟩
  exact ⟨code, l, Source.listings_eq_ok.2 ⟨e, Source.elaborated_eq_ok.2 ⟨p, hp, he⟩, hls⟩, hl⟩

/-- The file of a class `Main` can be written there, and that of a class `A` cannot. -/
theorem deliver_obstructed (source text : String) :
    Output.deliver (obstructed source) ⟨some "./Main.j", text⟩ = .ok ((obstructed source).put ["Main.j"] (.file text)) ∧
      (obstructed source).Refuses ⟨some "./A.j", text⟩ := ⟨rfl, .inl rfl⟩

/-- The session in which the two classes are compiled there. -/
def session : Session := .start .empty (obstructed twoClasses)

theorem breaksOff_session : ∃ text, session.BreaksOff ⟨"A.java", .assembly, none, []⟩
    [⟨some "./Main.j", text⟩] ((obstructed twoClasses).put ["Main.j"] (.file text)) := by
  obtain ⟨code, l, hlistings, hl⟩ := listings_twoClasses
  have hhere : ¬ Path.isDash "." := by decide
  have hmainPath : Path.join "." ((Assembly.Listing.main "Main" code).name ++ ".j") = "./Main.j" := by
    show Path.join "." ("Main" ++ ".j") = _
    decide
  have hclassPath : Path.join "." ((Assembly.Listing.cls l).name ++ ".j") = "./A.j" := by
    show Path.join "." (l.name ++ ".j") = _
    rw [hl]
    decide
  obtain ⟨hmainName, hclassName⟩ := List.forall_mem_cons.1 (Source.identifiers_of_listings hlistings)
  have hmain := Assembly.Listing.output_of_not_isDash hhere hmainName
  have hclass := Assembly.Listing.output_of_not_isDash hhere (hclassName (.cls l) List.mem_cons_self)
  rw [hmainPath] at hmain
  rw [hclassPath] at hclass
  have hsplit : [Assembly.Listing.main "Main" code, .cls l].map (Assembly.Listing.output ".") =
      [⟨some "./Main.j", (Assembly.Listing.main "Main" code).text⟩] ++ [⟨some "./A.j", (Assembly.Listing.cls l).text⟩] := by
    rw [List.map_cons, List.map_cons, List.map_nil, hmain, hclass]
    rfl
  obtain ⟨hdeliver, -⟩ := deliver_obstructed twoClasses (Assembly.Listing.main "Main" code).text
  have hdelivered : [(⟨some "./Main.j", _⟩ : Output)].foldlM Output.deliver (obstructed twoClasses) = .ok _ :=
    delivered_cons.2 ⟨_, hdeliver, rfl⟩
  exact ⟨_, rfl, ⟨_, _, _, [], rfl, hlistings, hsplit, takes_of_delivered hdelivered, (deliver_obstructed _ _).2⟩,
    hdelivered, node?_of_delivered hdelivered, fun h => by cases h ["Main.j"]⟩

end Sample

/-- The file of the main class has been made when the run fails. -/
theorem exists_file_of_failed_run : ∃ text, (Sample.session.run ["-t", "bytecode", "A.java"]).1 ≠ 0 ∧
    Sample.session.tree.node? ["Main.j"] = none ∧
    (Sample.session.run ["-t", "bytecode", "A.java"]).2.tree.node? ["Main.j"] = some (.file text) := by
  obtain ⟨text, hbreaks⟩ := Sample.breaksOff_session
  have hrequest : Request.ofArguments? ["-t", "bytecode", "A.java"] = some (.compile ⟨"A.java", .assembly, none, []⟩) := by
    cbv
  obtain ⟨hstatus, hleft⟩ := hbreaks.run hrequest
  refine ⟨text, hstatus, rfl, ?_⟩
  rw [hleft]
  rfl

end MiniJava
