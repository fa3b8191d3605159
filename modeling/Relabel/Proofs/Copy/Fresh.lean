import Relabel.Proofs.Binding
import Relabel.Proofs.Copy.Images

namespace Relabel

namespace Chooser

/-- What settling symbols with a selective chooser has done, whatever symbols were known at the start.
What takes the place of another symbol has been added to the table for it, and a declaration keeps its
symbol only if it is not transformed or that symbol is one of a class. -/
structure Renewed (judge : Judge) (owners : List (SymbolId × DeclId)) (before after : SymbolTable)
    (entries : List (SymbolId × SymbolId)) : Prop where
  old : ∀ id symbol, before.get? id = some symbol → after.get? id = some symbol
  added : ∀ old new, (old, new) ∈ entries → new ≠ old → before.size ≤ new.index ∧
    ∃ (id : DeclId) (symbol : Symbol), owners.lookup old = some id ∧ symbol.kind ≠ .cls ∧
      after.get? new = some symbol.standIn
  kept : ∀ old id, (old, old) ∈ entries → owners.lookup old = some id →
    ∃ verdict, judge.ruling after id = .ok verdict ∧
      (verdict = true → ∃ symbol : Symbol, after.get? old = some symbol ∧ symbol.kind = .cls)
  apart : ∀ first second new, (first, new) ∈ entries → (second, new) ∈ entries → new ≠ first →
    new ≠ second → first = second

section Renewed

variable {judge : Judge} {owners : List (SymbolId × DeclId)} {before after : SymbolTable}
  {entries : List (SymbolId × SymbolId)} {old : SymbolId}

theorem Renewed.keeps (renewed : Renewed judge owners before after entries) : after.Keeps before :=
  fun id symbol known => ⟨symbol, renewed.old id symbol known, rfl, rfl⟩

theorem Renewed.cons_kept (renewed : Renewed judge owners before after entries)
    (ruled : ∀ id, owners.lookup old = some id → ∃ verdict, judge.ruling before id = .ok verdict ∧
      (verdict = true → ∃ symbol : Symbol, before.get? old = some symbol ∧ symbol.kind = .cls)) :
    Renewed judge owners before after ((old, old) :: entries) := by
  refine ⟨renewed.old, ?_, ?_, ?_⟩
  · intro other new listed differs
    rcases List.mem_cons.1 listed with here | later
    · cases here
      exact absurd rfl differs
    · exact renewed.added other new later differs
  · intro other id listed owner
    rcases List.mem_cons.1 listed with here | later
    · cases here
      obtain ⟨verdict, ruling, isClass⟩ := ruled id owner
      refine ⟨verdict, renewed.keeps.ruling_eq_ok ruling, fun transformed => ?_⟩
      obtain ⟨symbol, known, kind⟩ := isClass transformed
      exact ⟨symbol, renewed.old _ _ known, kind⟩
    · exact renewed.kept other id later owner
  · intro first second new one two differs differsSecond
    rcases List.mem_cons.1 one with here | later
    · cases here
      exact absurd rfl differs
    rcases List.mem_cons.1 two with here | laterSecond
    · cases here
      exact absurd rfl differsSecond
    · exact renewed.apart first second new later laterSecond differs differsSecond

/-- A new symbol comes before those that are added later. -/
theorem Renewed.cons_added {symbol : Symbol} {id : DeclId}
    (renewed : Renewed judge owners (before.push symbol.standIn) after entries)
    (owner : owners.lookup old = some id) (known : before.get? old = some symbol)
    (replaceable : symbol.kind ≠ .cls) :
    Renewed judge owners before after ((old, ⟨before.size⟩) :: entries) := by
  have differs : SymbolId.mk before.size ≠ old := (SymbolTable.ne_size_of_get? known).symm
  have later : ∀ other new, (other, new) ∈ entries → new ≠ other → before.size < new.index := by
    intro other new listed moved
    have above := (renewed.added other new listed moved).1
    rw [SymbolTable.size_push] at above
    omega
  refine ⟨?_, ?_, ?_, ?_⟩
  · intro other data found
    exact renewed.old other data (SymbolTable.get?_push_of_get? found _)
  · intro other new listed moved
    rcases List.mem_cons.1 listed with here | rest
    · cases here
      refine ⟨Nat.le_refl _, id, symbol, owner, replaceable, renewed.old _ _ ?_⟩
      rw [SymbolTable.get?_push, if_pos rfl]
    · have above := later other new rest moved
      exact ⟨Nat.le_of_lt above, (renewed.added other new rest moved).2⟩
  · intro other decl listed found
    rcases List.mem_cons.1 listed with here | rest
    · cases here
      exact absurd rfl differs
    · exact renewed.kept other decl rest found
  · intro first second new one two moved movedSecond
    rcases List.mem_cons.1 one with here | rest
    · rcases List.mem_cons.1 two with hereSecond | restSecond
      · cases here
        cases hereSecond
        rfl
      · cases here
        exact absurd (later second _ restSecond movedSecond) (Nat.lt_irrefl _)
    · rcases List.mem_cons.1 two with hereSecond | restSecond
      · cases hereSecond
        exact absurd (later first _ rest moved) (Nat.lt_irrefl _)
      · exact renewed.apart first second new rest restSecond moved movedSecond

end Renewed

/-- The invariant is that the judge remembers rulings only. -/
theorem renewed_of_entries {judge : Judge} {owners : List (SymbolId × DeclId)}
    {symbols : List SymbolId} {entries : List (SymbolId × SymbolId)}
    {before after : CopyState Judge.Memory} (recalls : judge.Recalls before.symbols before.memory)
    (run : (symbols.mapM (entry (selective judge) owners)).run before = .ok entries after) :
    Renewed judge owners before.symbols after.symbols entries := by
  induction symbols generalizing entries before with
  | nil =>
    obtain ⟨rfl, rfl⟩ := EStateM.Result.ok.inj run
    refine ⟨fun _ _ known => known, ?_, ?_, ?_⟩
    · exact fun _ _ inside => nomatch inside
    · exact fun _ _ inside => nomatch inside
    · exact fun _ _ _ inside => nomatch inside
  | cons old symbols ih =>
    obtain ⟨new, rest, middle, settled, others, rfl⟩ := mapM_entry_cons_run run
    cases owner : owners.lookup old with
    | none =>
      obtain ⟨rfl, rfl⟩ := settle_run_of_foreign owner settled
      refine (ih recalls others).cons_kept fun id owned => ?_
      rw [owner] at owned
      exact nomatch owned
    | some id =>
      obtain ⟨transformed, judged, replacement⟩ := settle_run_of_owned owner settled
      obtain ⟨ruled, recallsNext⟩ :=
        (Judge.verdict_yields judge before.symbols id).eq_ok recalls judged
      have keeps := SymbolTable.Keeps.of_replacementFor replacement
      have renewed := ih (keeps.recalls recallsNext) others
      rcases SymbolTable.replacementFor_eq_ok_iff.1 replacement with
        ⟨-, symbol, known, replaceable, rfl, pushed⟩ | ⟨isClass, rfl, same⟩
      · rw [pushed] at renewed
        exact renewed.cons_added owner known replaceable
      · rw [same] at renewed
        refine renewed.cons_kept fun other owned => ?_
        obtain rfl := Option.some.inj (owner.symm.trans owned)
        exact ⟨transformed, ruled, isClass⟩

end Chooser

theorem Symbol.isStandIn_standIn {symbol : Symbol} (replaceable : symbol.kind ≠ .cls) :
    symbol.standIn.isStandIn = true := by
  simp [isStandIn, standIn, isPlaceholder, Kind.replaceable, replaceable]

namespace DeclTree

variable {tree : DeclTree} {predicate : TypePredicate} {before after : RelabelState} {copy : Copy}

/-- Whether a copy gives a new symbol to a declaration. -/
def renews (tree : DeclTree) (substitution : Substitution) (id : DeclId) : Bool :=
  (tree.get? id).any fun decl => substitution.isReplaced decl.symbol

/-- A copy with the symbols that have been added for it. -/
structure RenewedBy (tree : DeclTree) (predicate : TypePredicate) (before after : SymbolTable)
    (copy : Copy) (owners : List (SymbolId × DeclId)) : Prop where
  indexed : tree.Indexed owners
  copiedTo : tree.CopiedTo copy (DeclId.placeIn tree.postorder)
  distinct : (copy.substitution.entries.map Prod.fst).Nodup
  renewed : Chooser.Renewed ⟨tree, predicate⟩ owners before.takeTree.2 after copy.substitution.entries

theorem exists_renewedBy (run : (tree.copy predicate).run before = .ok copy after) :
    ∃ owners, tree.RenewedBy predicate before.symbols after.symbols copy owners := by
  obtain ⟨last, walked, rfl⟩ := copy_run_eq_ok_iff.1 run
  obtain ⟨owners, copied⟩ := exists_copied_of_copyWith walked
  have renewed := Chooser.renewed_of_entries (Judge.recalls_empty _) copied.entries
  exact ⟨owners, copied.indexed, copied.copiedTo, copied.distinct, renewed⟩

namespace RenewedBy

variable {before after : SymbolTable} {owners : List (SymbolId × DeclId)}

theorem isReplaced_iff_of_mem (renewal : tree.RenewedBy predicate before after copy owners)
    {old new : SymbolId} (listed : (old, new) ∈ copy.substitution.entries) :
    copy.substitution.isReplaced old = true ↔ new ≠ old := by
  have entry : copy.substitution.get? old = some new := (lookup_eq_some_iff_mem renewal.distinct).2 listed
  simp [Substitution.isReplaced, entry]

/-- A placeholder that a copy has kept is misplaced. -/
theorem not_admits_of_kept (renewal : tree.RenewedBy predicate before after copy owners)
    {id : DeclId} {decl image : Decl} {symbol : Symbol} {place : DeclId → DeclId}
    (reached : tree.Reachable id) (found : tree.get? id = some decl)
    (copied : decl.CopiedAs image copy.substitution place)
    (stays : (decl.symbol, decl.symbol) ∈ copy.substitution.entries)
    (known : after.get? image.symbol = some symbol) (standIn : symbol.isStandIn = true) :
    image.form.admits symbol.kind = false := by
  have entry : copy.substitution.get? decl.symbol = some decl.symbol :=
    (lookup_eq_some_iff_mem renewal.distinct).2 stays
  rw [copied.symbol, Substitution.apply_eq_of_get? entry] at known
  rw [DeclForm.admits, copied.form, DeclForm.sort_rename, ← DeclForm.admits]
  have owner := (renewal.indexed.lookup decl.symbol id).2 ⟨reached, decl, found, rfl⟩
  obtain ⟨verdict, ruled, isClass⟩ := renewal.renewed.kept decl.symbol id stays owner
  cases verdict with
  | false => exact Judge.not_admits_of_ruling_false ruled found known standIn
  | true =>
    obtain ⟨same, knownSame, kind⟩ := isClass rfl
    obtain rfl := Option.some.inj (known.symm.trans knownSame)
    simp [Symbol.isStandIn, Symbol.Kind.replaceable, kind] at standIn

section Bindable

variable (renewal : tree.RenewedBy predicate before after copy owners)
  (bindable : ∀ id, tree.Reachable id → copy.tree.Bindable after (id.placeIn tree.postorder))

include renewal bindable

/-- If the placeholders of a copy can be bound, those that it owns are the new symbols. -/
theorem exists_owned {id : DeclId} {decl : Decl} (reached : tree.Reachable id)
    (found : tree.get? id = some decl) : ∃ image symbol,
      copy.tree.get? (id.placeIn tree.postorder) = some image ∧
      (decl.symbol, image.symbol) ∈ copy.substitution.entries ∧
      after.get? image.symbol = some symbol ∧
      symbol.isStandIn = copy.substitution.isReplaced decl.symbol ∧
      (symbol.isStandIn = true → symbol.isBound = false) := by
  obtain ⟨image, symbol, foundImage, known, admits⟩ := bindable id reached
  obtain ⟨same, foundSame, copied⟩ := renewal.copiedTo.exists_image reached found
  obtain rfl := Option.some.inj (foundImage.symm.trans foundSame)
  obtain ⟨new, entry⟩ := copied.settled decl.symbol List.mem_cons_self
  obtain rfl : image.symbol = new := by rw [copied.symbol, Substitution.apply_eq_of_get? entry]
  have listed := mem_of_lookup entry
  have moved := renewal.isReplaced_iff_of_mem listed
  refine ⟨image, symbol, foundImage, listed, known, ?_⟩
  by_cases stays : image.symbol = decl.symbol
  · have isReplaced : copy.substitution.isReplaced decl.symbol = false := by
      simpa [stays] using moved
    have other : symbol.isStandIn = false := by
      by_contra standIn
      rw [Bool.not_eq_false] at standIn
      have refused := renewal.not_admits_of_kept reached found copied (stays ▸ listed) known standIn
      rw [admits standIn] at refused
      exact nomatch refused
    rw [isReplaced, other]
    exact ⟨rfl, fun absurd => nomatch absurd⟩
  · obtain ⟨-, -, original, -, replaceable, added⟩ := renewal.renewed.added _ _ listed stays
    obtain rfl := Option.some.inj (known.symm.trans added)
    rw [moved.2 stays]
    exact ⟨Symbol.isStandIn_standIn replaceable, fun _ => rfl⟩

/-- The copies own different symbols, as what is new to one of them has been added for it alone. -/
theorem ownsApart (ids : List DeclId) : copy.tree.OwnsApart ids := by
  intro first _ second _ image other foundFirst foundSecond same
  obtain ⟨id, decl, reached, rfl, found, -⟩ := renewal.copiedTo.exists_source foundFirst
  obtain ⟨id', decl', reached', rfl, found', -⟩ := renewal.copiedTo.exists_source foundSecond
  obtain ⟨one, symbol, foundOne, entry, known, isNew, -⟩ := renewal.exists_owned bindable reached found
  obtain ⟨two, symbol', foundTwo, entry', known', isNew', -⟩ :=
    renewal.exists_owned bindable reached' found'
  obtain rfl := Option.some.inj (foundFirst.symm.trans foundOne)
  obtain rfl := Option.some.inj (foundSecond.symm.trans foundTwo)
  rw [← same] at known' entry'
  obtain rfl := Option.some.inj (known.symm.trans known')
  have sameOld : decl.symbol = decl'.symbol := by
    by_cases stays : image.symbol = decl.symbol
    · have kept : image.symbol = decl'.symbol := by
        by_contra differs
        rw [(renewal.isReplaced_iff_of_mem entry').2 differs, isNew,
          renewal.isReplaced_iff_of_mem entry] at isNew'
        exact isNew' stays
      exact stays.symm.trans kept
    · have movedToo : image.symbol ≠ decl'.symbol := by
        rw [← renewal.isReplaced_iff_of_mem entry', ← isNew', isNew]
        exact (renewal.isReplaced_iff_of_mem entry).2 stays
      exact renewal.renewed.apart _ _ _ entry entry' stays movedToo
  rw [renewal.indexed.owner_unique reached reached' found found' sameOld]

end Bindable

theorem mem_keys_replacements_iff (renewal : tree.RenewedBy predicate before after copy owners)
    {old : SymbolId} : old ∈ copy.substitution.replacements.map Prod.fst ↔
      copy.substitution.isReplaced old = true := by
  rw [List.mem_map]
  constructor
  · rintro ⟨⟨old, new⟩, entry, rfl⟩
    obtain ⟨listed, differs⟩ := Substitution.mem_replacements_iff.1 entry
    exact (renewal.isReplaced_iff_of_mem listed).2 differs.symm
  · intro isReplaced
    obtain ⟨new, entry, differs⟩ := Substitution.isReplaced_eq_true_iff.1 isReplaced
    exact ⟨(old, new), Substitution.mem_replacements_iff.2 ⟨mem_of_lookup entry, differs.symm⟩, rfl⟩

/-- Every symbol that is replaced is owned by a declaration that gets a new one. -/
theorem mem_owned_renewed_iff (renewal : tree.RenewedBy predicate before after copy owners)
    {old : SymbolId} :
    old ∈ (tree.owned (tree.preorder.filter (tree.renews copy.substitution))).map Prod.fst ↔
      copy.substitution.isReplaced old = true := by
  rw [List.mem_map]
  constructor
  · rintro ⟨⟨old, id⟩, entry, rfl⟩
    obtain ⟨moved, decl, found, rfl⟩ := mem_owned_iff.1 entry
    have isReplaced := (List.mem_filter.1 moved).2
    rwa [renews, found, Option.any_some] at isReplaced
  · intro isReplaced
    obtain ⟨new, entry, differs⟩ := Substitution.isReplaced_eq_true_iff.1 isReplaced
    obtain ⟨-, id, -, owner, -⟩ := renewal.renewed.added old new (mem_of_lookup entry) differs
    obtain ⟨reached, decl, found, rfl⟩ := (renewal.indexed.lookup old id).1 owner
    refine ⟨(decl.symbol, id), mem_owned_iff.2 ⟨List.mem_filter.2 ⟨?_, ?_⟩, decl, found, rfl⟩, rfl⟩
    · exact (mem_preorder_iff renewal.indexed.fits).2 reached
    · rwa [renews, found, Option.any_some]

/-- The new symbols are as many as the declarations that get one. -/
theorem length_replacements (renewal : tree.RenewedBy predicate before after copy owners) :
    copy.substitution.replacements.length = tree.preorder.countP (tree.renews copy.substitution) := by
  let renewed := tree.preorder.filter (tree.renews copy.substitution)
  have known : ∀ id ∈ renewed, ∃ decl, tree.get? id = some decl := fun id inside =>
    exists_get?_of_mem_preorder renewal.indexed.fits (List.mem_of_mem_filter inside)
  have apart : tree.OwnsApart renewed := by
    intro first inside second insideSecond decl other
    exact renewal.indexed.owner_unique (reachable_of_mem_preorder (List.mem_of_mem_filter inside))
      (reachable_of_mem_preorder (List.mem_of_mem_filter insideSecond))
  have keys : (copy.substitution.replacements.map Prod.fst).Nodup :=
    renewal.distinct.sublist (List.filter_sublist.map _)
  have symbols : ((tree.owned renewed).map Prod.fst).Nodup :=
    nodup_owned (renewal.indexed.nodup_preorder.filter _) apart
  have same := (List.perm_ext_iff_of_nodup keys symbols).2 fun old =>
    renewal.mem_keys_replacements_iff.trans renewal.mem_owned_renewed_iff.symm
  have length := same.length_eq
  rw [List.length_map, List.length_map, length_owned known] at length
  rw [length, List.countP_eq_length_filter]

end RenewedBy

/-- Binding a copy visits every declaration, and what it binds are the new symbols. -/
theorem stats_of_copy {middle : RelabelState} {stats : BindingStats} {last : SymbolTable}
    (copying : (tree.copy predicate).run before = .ok copy middle)
    (binding : copy.tree.bindPlaceholders.run middle.symbols = .ok stats last) :
    stats = ⟨tree.preorder.length, tree.preorder.countP (tree.renews copy.substitution), 0⟩ := by
  obtain ⟨owners, renewal⟩ := exists_renewedBy copying
  have laidOut := laidOut_of_copy copying
  have bindable : ∀ id, tree.Reachable id →
      copy.tree.Bindable middle.symbols (id.placeIn tree.postorder) :=
    (forall_mem_preorder_copy_iff copying).1 (exists_bindPlaceholders_run_iff.1 ⟨stats, last, binding⟩).2
  have here {id : DeclId} (inside : id ∈ tree.preorder) : ∃ symbol : Symbol,
      symbol.isStandIn = tree.renews copy.substitution id ∧
      (symbol.isStandIn = true → symbol.isBound = false) ∧
      ∀ test, copy.tree.owns middle.symbols test (id.placeIn tree.postorder) = test symbol := by
    have reached := reachable_of_mem_preorder inside
    obtain ⟨decl, -, found, -⟩ := renewal.copiedTo.decls id reached
    obtain ⟨image, symbol, foundImage, -, known, isNew, free⟩ := renewal.exists_owned bindable reached found
    refine ⟨symbol, ?_, free, owns_of_get? foundImage known⟩
    rw [isNew, renews, found, Option.any_some]
  rw [stats_of_bindPlaceholders (renewal.ownsApart bindable _) binding laidOut.nodup, tally,
    laidOut.preorder, List.length_map, List.countP_map, List.countP_map]
  congr 1
  · refine List.countP_congr fun id inside => ?_
    obtain ⟨symbol, isNew, free, owns⟩ := here inside
    rw [Function.comp_apply, owns, ← isNew]
    cases standIn : symbol.isStandIn with
    | false => simp
    | true => simp [free standIn]
  · rw [List.countP_eq_zero]
    intro id inside
    obtain ⟨symbol, -, free, owns⟩ := here inside
    rw [Function.comp_apply, owns]
    cases standIn : symbol.isStandIn with
    | false => simp
    | true => simp [free standIn]

end DeclTree

end Relabel
