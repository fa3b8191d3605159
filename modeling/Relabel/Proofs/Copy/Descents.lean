import Relabel.Copy.Chooser
import Relabel.Proofs.Traversal

namespace Relabel

variable {σ τ α : Type}

/-- A declaration that a copy descends into, and what it returns with. -/
structure Descent where
  decl : DeclId
  image : DeclId
deriving DecidableEq

namespace Pass

/-- Descends into a declaration and notes that down, last. -/
def noted (descend : DeclId → Pass σ DeclId) (id : DeclId) : Pass (σ × List Descent) DeclId := do
  let image ← aside (descend id)
  modify fun (state, descents) => (state, descents ++ [⟨id, image⟩])
  pure image

theorem accord_noted (descend : DeclId → Pass σ DeclId) (id : DeclId) :
    Accord Logging (descend id) (noted descend id) := by
  rw [← bind_pure (descend id)]
  refine (accord_aside (descend id)).bind fun image => ?_
  rintro _ ⟨state, descents⟩ rfl
  exact .ok ⟨rfl, rfl⟩

theorem run_noted_eq_ok_iff {descend : DeclId → Pass σ DeclId} {id image : DeclId}
    {before after : σ × List Descent} :
    (noted descend id).run before = .ok image after ↔
      (descend id).run before.1 = .ok image after.1 ∧ after.2 = before.2 ++ [⟨id, image⟩] := by
  rw [noted, run_bind_eq_ok_iff]
  constructor
  · rintro ⟨found, middle, run, noting⟩
    obtain ⟨rfl, rfl⟩ := EStateM.Result.ok.inj noting
    obtain ⟨descended, same⟩ := run_aside_eq_ok_iff.1 run
    exact ⟨descended, by rw [← same]⟩
  · rintro ⟨run, listed⟩
    refine ⟨image, (after.1, before.2), run_aside_eq_ok_iff.2 ⟨run, rfl⟩, ?_⟩
    change EStateM.Result.ok image (after.1, before.2 ++ [⟨id, image⟩]) = _
    rw [← listed]

end Pass

/-- The descents lead, in order, from the declarations among some occurrences to those among others,
and each of them is a run of `descend`. -/
structure Descent.Lead (descend : DeclId → Pass σ DeclId) (descents : List Descent)
    (before after : List Occurrence) : Prop where
  decls : descents.map Descent.decl = before.filterMap Occurrence.decl?
  images : descents.map Descent.image = after.filterMap Occurrence.decl?
  runs : ∀ descent ∈ descents, ∃ state next,
    (descend descent.decl).run state = .ok descent.image next

namespace Descent

variable {f : SymbolId → Pass σ SymbolId} {g : DeclId → Pass σ DeclId}

theorem Lead.append {descents more : List Descent} {before after others images : List Occurrence}
    (first : Lead g descents before after) (rest : Lead g more others images) :
    Lead g (descents ++ more) (before ++ others) (after ++ images) where
  decls := by rw [List.map_append, first.decls, rest.decls, List.filterMap_append]
  images := by rw [List.map_append, first.images, rest.images, List.filterMap_append]
  runs := List.forall_mem_append.2 ⟨first.runs, rest.runs⟩

/-- The visit of an occurrence descends where a declaration is held, and nowhere else. -/
theorem lead_of_visit {occurrence image : Occurrence} {before after : σ × List Descent}
    (run : (occurrence.visit (fun symbol => Pass.aside (f symbol)) (Pass.noted g)).run before =
      .ok image after) :
    ∃ descents, after.2 = before.2 ++ descents ∧ Lead g descents [occurrence] [image] := by
  cases occurrence with
  | decl id =>
    obtain ⟨place, descended, rfl⟩ := Pass.run_map_eq_ok_iff.1 run
    obtain ⟨inner, listed⟩ := Pass.run_noted_eq_ok_iff.1 descended
    refine ⟨[⟨id, place⟩], listed, rfl, rfl, ?_⟩
    rintro _ (_ | ⟨_, ⟨⟩⟩)
    exact ⟨before.1, after.1, inner⟩
  | symbol id =>
    obtain ⟨place, mentioned, rfl⟩ := Pass.run_map_eq_ok_iff.1 run
    obtain ⟨-, same⟩ := Pass.run_aside_eq_ok_iff.1 mentioned
    exact ⟨[], by rw [same, List.append_nil], rfl, rfl, fun _ inside => nomatch inside⟩

theorem lead_of_visits {occurrences images : List Occurrence} {before after : σ × List Descent}
    (run : (occurrences.mapM (Occurrence.visit (fun symbol => Pass.aside (f symbol))
      (Pass.noted g))).run before = .ok images after) :
    ∃ descents, after.2 = before.2 ++ descents ∧ Lead g descents occurrences images := by
  induction occurrences generalizing images before with
  | nil =>
    obtain ⟨rfl, rfl⟩ := EStateM.Result.ok.inj run
    exact ⟨[], (List.append_nil _).symm, rfl, rfl, fun _ inside => nomatch inside⟩
  | cons occurrence occurrences ih =>
    rw [List.mapM_cons, Pass.run_bind_eq_ok_iff] at run
    obtain ⟨image, middle, first, run⟩ := run
    obtain ⟨images, last, rest, returned⟩ := Pass.run_bind_eq_ok_iff.1 run
    obtain ⟨rfl, rfl⟩ := EStateM.Result.ok.inj returned
    obtain ⟨descents, listed, lead⟩ := lead_of_visit first
    obtain ⟨more, listedMore, leadMore⟩ := ih rest
    exact ⟨descents ++ more, by rw [listedMore, listed, List.append_assoc], lead.append leadMore⟩

end Descent

/-- A traversal descends into the declarations directly inside, and what it returns with is directly
inside the result. -/
theorem DeclForm.descents_of_traverse {f : SymbolId → Pass σ SymbolId} {g : DeclId → Pass σ DeclId}
    {form image : DeclForm} {before after : σ × List Descent}
    (run : (form.traverse (fun symbol => Pass.aside (f symbol)) (Pass.noted g)).run before =
      .ok image after) :
    ∃ descents, after.2 = before.2 ++ descents ∧ descents.map Descent.decl = form.children ∧
      descents.map Descent.image = image.children ∧
      ∀ descent ∈ descents, ∃ state next,
        (g descent.decl).run state = .ok descent.image next := by
  have ends := DeclForm.traverses (f := fun symbol => Pass.aside (f symbol)) (g := Pass.noted g)
    form before
  rw [run] at ends
  generalize visits : (Shape.form.occurrences form |>.mapM (Occurrence.visit _ _)).run before = ran
    at ends
  cases ends with
  | ok related =>
    obtain ⟨rfl, refilled⟩ := related
    obtain ⟨descents, listed, lead⟩ := Descent.lead_of_visits visits
    refine ⟨descents, listed, ?_, ?_, lead.runs⟩
    · rw [lead.decls]
      exact form.decls_of_occurrences
    · rw [lead.images, ← refilled.listed]
      exact image.decls_of_occurrences

namespace Copier

/-- What is done to copy one declaration. How to copy those inside it is told by `descend`, and `run`
does the rest. -/
def layer (copier : Copier σ) (run : {α : Type} → Pass (Copying σ) α → Pass τ α)
    (descend : DeclId → Pass τ DeclId) (id : DeclId) : Pass τ DeclId := do
  let decl ← run (Pass.decl copier.tree id)
  let symbol ← run (Copying.settle (copier.ownerSymbol id))
  let form ← decl.form.traverse
    (fun symbol => run (Copying.settle (copier.mentionedSymbol symbol))) descend
  run (Copying.add { decl with symbol, form, container := none })

/-- Copies a declaration and notes down which ones the copy descends into by itself. -/
def copyNoting (copier : Copier σ) (depth : Nat) : DeclId → Pass (Copying σ × List Descent) DeclId :=
  copier.layer Pass.aside (Pass.noted (copier.copyDecl depth))

theorem copyDecl_succ (copier : Copier σ) (depth : Nat) :
    copier.copyDecl (depth + 1) = copier.layer (fun pass => pass) (copier.copyDecl depth) := rfl

/-- To note down the descents changes nothing else. -/
theorem copyNoting_accord (copier : Copier σ) (depth : Nat) (id : DeclId) :
    Pass.Accord Pass.Logging (copier.copyDecl (depth + 1) id) (copier.copyNoting depth id) := by
  rw [copyDecl_succ]
  refine (Pass.accord_aside _).bind fun decl => ?_
  refine (Pass.accord_aside _).bind fun symbol => ?_
  have inside : Pass.Accord Pass.Logging _ (decl.form.traverse _ _) :=
    DeclForm.traverse_accord
      (fun symbol => Pass.accord_aside (Copying.settle (copier.mentionedSymbol symbol)))
      (fun child _ => Pass.accord_noted (copier.copyDecl depth) child)
  exact inside.bind fun form => Pass.accord_aside _

/-- A copy that succeeds descends into the declarations directly inside, in order and as often as they
are listed, and those directly inside the result are what it returned with. -/
theorem descents_of_copyDecl (copier : Copier σ) (depth : Nat) (id new : DeclId)
    (before after : Copying σ)
    (run : (copier.copyDecl (depth + 1) id).run before = .ok new after) :
    ∃ decl image descents, copier.tree.get? id = some decl ∧ after.out.get? new = some image ∧
      (copier.copyNoting depth id).run (before, []) = .ok new (after, descents) ∧
      descents.map Descent.decl = decl.form.children ∧
      descents.map Descent.image = image.form.children ∧
      ∀ descent ∈ descents, ∃ state next,
        (copier.copyDecl depth descent.decl).run state = .ok descent.image next := by
  have ends := copyNoting_accord copier depth id before (before, []) rfl
  rw [run] at ends
  generalize noting : (copier.copyNoting depth id).run (before, []) = ran at ends
  cases ends with
  | @ok _ _ _ logged related =>
    obtain ⟨rfl, rfl⟩ := related
    obtain ⟨decl, first, looked, noting⟩ := Pass.run_bind_eq_ok_iff.1 noting
    obtain ⟨symbol, second, settled, noting⟩ := Pass.run_bind_eq_ok_iff.1 noting
    obtain ⟨form, third, traversed, added⟩ := Pass.run_bind_eq_ok_iff.1 noting
    obtain ⟨found, sameFirst⟩ := Pass.run_aside_eq_ok_iff.1 looked
    obtain ⟨-, sameSecond⟩ := Pass.run_aside_eq_ok_iff.1 settled
    obtain ⟨adding, sameLast⟩ := Pass.run_aside_eq_ok_iff.1 added
    obtain ⟨descents, listed, decls, images, runs⟩ := DeclForm.descents_of_traverse traversed
    obtain ⟨found, -⟩ := Pass.run_decl_eq_ok_iff.1 found
    obtain ⟨rfl, built⟩ := EStateM.Result.ok.inj adding
    have noted : logged.2 = descents := by
      rw [sameLast, listed, sameSecond, sameFirst, List.nil_append]
    have placed : logged.1.out.get? ⟨third.1.out.size⟩ =
        some { decl with symbol, form, container := none } := by
      rw [← built]
      exact (third.1.out.get?_add _ _).trans (if_pos rfl)
    exact ⟨decl, _, descents, found, placed, by rw [← noted], decls, images, runs⟩

/-- It copies a function that declares another one twice, once in a block that is an argument of a call
on a lambda. The default of its parameter is a lambda as well. -/
def sampleDescending : Copier Unit where
  choose := .listed []
  declared := []
  tree :=
    { id := ⟨0⟩
      roots := [⟨5⟩]
      decls := #[
        { symbol := ⟨0⟩, form := .signature .empty [] none },
        { symbol := ⟨1⟩, form := .valueParam ⟨1⟩ (.ofName ⟨2⟩) (some (.lambda ⟨0⟩)) },
        { symbol := ⟨2⟩, form := .receiverParam (.ofName ⟨2⟩) },
        { symbol := ⟨3⟩, form := .signature ⟨3⟩ [] none },
        { symbol := ⟨4⟩, form := .signature .empty [] none },
        { symbol := ⟨5⟩, form := .function ⟨4⟩ [] (some ⟨2⟩) [⟨1⟩] none (some [
            .decl ⟨3⟩,
            .expr (.call ⟨5⟩ [] (some (.lambda ⟨4⟩)) [
              .read ⟨1⟩, .block [.decl ⟨3⟩, .ret (some (.construct ⟨6⟩ [] [.lambda ⟨0⟩]))]]),
            .ret none]) }] }

theorem descents_of_copyDecl_sampleDescending :
    ∃ (new : DeclId) (after : Copying Unit) (image : Decl) (descents : List Descent),
      (sampleDescending.copyDecl 3 ⟨5⟩).run (.start ⟨1⟩ ⟨{}, (), []⟩) = .ok new after ∧
      (sampleDescending.copyNoting 2 ⟨5⟩).run (.start ⟨1⟩ ⟨{}, (), []⟩, []) =
        .ok new (after, descents) ∧
      descents.map Descent.decl = [⟨2⟩, ⟨1⟩, ⟨3⟩, ⟨4⟩, ⟨3⟩, ⟨0⟩] ∧
      after.out.get? new = some image ∧ descents.map Descent.image = image.form.children := by
  have done : (sampleDescending.copyDecl 3 ⟨5⟩).succeeds (.start ⟨1⟩ ⟨{}, (), []⟩) = true := by
    decide +kernel
  obtain ⟨new, after, run⟩ := Pass.succeeds_eq_true_iff.1 done
  obtain ⟨decl, image, descents, found, built, noting, decls, images, -⟩ :=
    descents_of_copyDecl sampleDescending 2 ⟨5⟩ new _ after run
  have children : decl.form.children = [⟨2⟩, ⟨1⟩, ⟨3⟩, ⟨4⟩, ⟨3⟩, ⟨0⟩] := by
    obtain rfl := Option.some.inj found
    decide
  exact ⟨new, after, image, descents, run, noting, decls.trans children, built, images⟩

end Copier

end Relabel
