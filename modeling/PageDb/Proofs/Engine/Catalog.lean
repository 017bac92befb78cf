import PageDb.Proofs.Engine.TwoPhase

/-!
The names of tables.

`Engine.Catalogued` is what creating and dropping databases and tables leads to, through databases
that are registered and through those that were dropped and still have clients.  The tables of one
database always have different qualified names and different page files.  Both names put a separator
behind the name of the database, so tables of different databases do too where these names do not
contain the separator; where they do, or where two databases have one name, tables may share names.
-/

namespace PageDb

/-- What stands before the first separator is told from the text. -/
theorem eq_of_append_separator {c : Char} {s s' rest rest' : List Char} (hs : c ∉ s) (hs' : c ∉ s')
    (h : s ++ c :: rest = s' ++ c :: rest') : s = s' := by
  have hbefore (s rest : List Char) (hs : c ∉ s) :
      (s ++ c :: rest).takeWhile (fun x => x ≠ c) = s := by
    rw [List.takeWhile_append_of_pos]
    · simp
    · intro x hx
      exact decide_eq_true fun heq => hs (heq ▸ hx)
  rw [← hbefore s rest hs, h, hbefore s' rest' hs']

/-- A page file's name shows the name of the database, if that has no hash sign. -/
theorem PageFile.database_eq_of_name_eq {database table database' table' : String} {m n : Nat}
    (hs : '#' ∉ database.toList) (hs' : '#' ∉ database'.toList)
    (h : name database table m = name database' table' n) : database = database' := by
  have hstem := congrArg String.toList (tableStem_eq_of_name_eq h)
  simp only [tableStem, separator, String.toList_append, List.append_assoc,
    List.append_cancel_left_eq] at hstem
  exact String.toList_inj.1 (eq_of_append_separator hs hs' hstem)

/-- A page file's name shows the table, once the database is known. -/
theorem PageFile.table_eq_of_name_eq {database table table' : String} {m n : Nat}
    (h : name database table m = name database table' n) : table = table' := by
  have hstem := congrArg String.toList (tableStem_eq_of_name_eq h)
  simp only [tableStem, String.toList_append, List.append_assoc, List.append_cancel_left_eq,
    List.append_cancel_right_eq] at hstem
  exact String.toList_inj.1 (by simpa [separator] using hstem)

namespace Engine

variable {config : Config} {disk : Disk} {e e' : Engine} {names : Nat → Option String}
  {d d' : Nat} {t u : Table}

/-! ## The catalog -/

/-- Tables are filed under their names, and databases registered under theirs. -/
structure Catalog (names : Nat → Option String) (e : Engine) : Prop where
  filed : e.Filed names
  registry : e.registry.Ascending fun _ => True
  named : ∀ name d, e.registry.get? name = some d →
    (e.database d).name = name ∧ d < e.nextDatabase

/-- A table that is opened gets the next number whether its page files can be loaded or not. -/
theorem run_openTable (d : Nat) (name : String) (schema : Schema) (e : Engine) :
    (openTable d name schema).run e =
      if (e.database d).tables.contains name then (.error (.tableExists name), e)
      else
        let table : Table := ⟨e.nextTable, (e.database d).name, name, schema⟩
        match table.recover.run (e.space.create e.config table) with
        | (.ok (), space) =>
          (.ok table,
            { e with
              nextTable := e.nextTable + 1
              space := space
              databases := e.databases.modify d fun database =>
                { database with tables := (e.database d).tables.insert name table } })
        | (.error failure, space) =>
          (.error failure,
            { e with nextTable := e.nextTable + 1, space := space.removeStore e.nextTable }) := by
  simp only [openTable, makeTable]
  rw [Action.run_bind, Action.run_bind_ok (Action.run_get e)]
  cases (e.database d).tables.contains name with
  | true => rfl
  | false =>
    simp only [Bool.false_eq_true, if_false, Action.run_bind, Action.run_set, Action.run_pure,
      Action.run_attempt, onSpace, Action.run_onPart, Tablespace.create]
    generalize (Table.recover _).run _ = outcome
    rcases outcome with ⟨failure | _, space⟩ <;> rfl

/-- What creating, opening and dropping databases and tables leads to, whether it succeeds or not.
A database is meant by its number, whether it is registered or not. -/
inductive Catalogued (config : Config) (disk : Disk) : Engine → Prop where
  | start : Catalogued config disk (.start config disk)
  | createDatabase {e : Engine} (h : Catalogued config disk e) (name : String) :
      Catalogued config disk (e.createDatabase name)
  | dropDatabase {e : Engine} (h : Catalogued config disk e) (name : String) :
      Catalogued config disk ((dropDatabase name).run e).2
  | connect {e : Engine} (h : Catalogued config disk e) (name : String) :
      Catalogued config disk ((connect name).run e).2
  | createTable {e : Engine} (h : Catalogued config disk e) (d : Nat) (name : String)
      (schema : Schema) : Catalogued config disk ((createTable d name schema).run e).2
  | openTable {e : Engine} (h : Catalogued config disk e) (d : Nat) (name : String)
      (schema : Schema) : Catalogued config disk ((openTable d name schema).run e).2
  | dropTable {e : Engine} (h : Catalogued config disk e) (d : Nat) (name : String) :
      Catalogued config disk ((dropTable d name).run e).2
  /-- Work on rows, locks and sessions. -/
  | work {e e' : Engine} (h : Catalogued config disk e) (hsame : e.SameCatalog e') :
      Catalogued config disk e'

/-- Whether a database can be connected to. -/
def Registered (e : Engine) (d : Nat) : Prop := ∃ name, e.registry.get? name = some d

/-- Whether a separator tells the tables of two databases apart: it is one database, or the names of
the two do not contain it and are different, as those of registered databases are. -/
def Separates (c : Char) (e : Engine) (d d' : Nat) : Prop :=
  d = d' ∨ (c ∉ (e.database d).name.toList ∧ c ∉ (e.database d').name.toList ∧
    (e.Registered d ∧ e.Registered d' ∨ (e.database d).name ≠ (e.database d').name))

namespace Catalog

theorem congr (h : e.Catalog names) (hsame : e.SameCatalog e') : e'.Catalog names := by
  refine ⟨h.filed.congr hsame.databases hsame.nextTable, hsame.registry ▸ h.registry,
    fun name d hd => ?_⟩
  rw [hsame.registry] at hd
  rw [hsame.nextDatabase, database, hsame.databases]
  exact h.named name d hd

/-- Only the tables of databases have changed. -/
theorem withFiled {names' : Nat → Option String} (h : e.Catalog names) (hfiled : e'.Filed names')
    (hregistry : e'.registry = e.registry) (hnext : e'.nextDatabase = e.nextDatabase)
    (hname : ∀ d, (e'.database d).name = (e.database d).name) : e'.Catalog names' := by
  refine ⟨hfiled, hregistry ▸ h.registry, fun name d hd => ?_⟩
  rw [hregistry] at hd
  rw [hname, hnext]
  exact h.named name d hd

theorem createDatabase (h : e.Catalog names) (name : String) :
    (e.createDatabase name).Catalog names := by
  cases hnew : e.registry.contains name with
  | true =>
    rw [Engine.createDatabase, hnew, if_pos rfl]
    exact h
  | false =>
    have hregistry : (e.createDatabase name).registry = e.registry.insert name e.nextDatabase := by
      rw [Engine.createDatabase, hnew, if_neg Bool.false_ne_true]
    have hnext : (e.createDatabase name).nextDatabase = e.nextDatabase + 1 := by
      rw [Engine.createDatabase, hnew, if_neg Bool.false_ne_true]
    refine ⟨h.filed.createDatabase name, ?_, fun other d hd => ?_⟩
    · rw [hregistry]
      exact h.registry.insert SortedMap.orderedOn_all trivial _
    rw [database_createDatabase h.filed.databases hnew, hnext]
    rw [hregistry, SortedMap.get?_insert_eq h.registry] at hd
    split at hd
    · rename_i hother
      cases hd
      rw [if_pos rfl]
      exact ⟨hother.symm, Nat.lt_succ_self _⟩
    · -- the numbers of registered databases come before that of the new one
      obtain ⟨hname, hlt⟩ := h.named other d hd
      rw [if_neg (Nat.ne_of_lt hlt)]
      exact ⟨hname, Nat.lt_succ_of_lt hlt⟩

theorem sameCatalog_dropEach (tables : List Table) (e : Engine) :
    e.SameCatalog ((dropEach tables).run e).2 := by
  induction tables generalizing e with
  | nil => exact .refl e
  | cons table rest ih =>
    have hone : e.SameCatalog { e with space := (table.drop.run e.space).2 } :=
      ⟨rfl, rfl, rfl, Nat.le_refl _⟩
    rw [dropEach, Action.run_bind, onSpace, Action.run_onPart]
    cases (table.drop.run e.space).1 with
    | error failure => exact hone
    | ok _ => exact hone.trans (ih _)

theorem dropDatabase (h : e.Catalog names) (name : String) :
    ((Engine.dropDatabase name).run e).2.Catalog names := by
  rw [Engine.dropDatabase, Action.run_bind_ok (Action.run_get e)]
  cases e.databaseNumber name with
  | error failure => exact h
  | ok number =>
    have hempty : (e.withTables number ∅).Catalog names := by
      refine h.withFiled (h.filed.withTables number SortedMap.ascending_empty nofun) rfl rfl
        fun d => (database_withTables e number ∅ d).1
    have herased : Catalog names { e.withTables number ∅ with registry := e.registry.erase name } := by
      refine ⟨hempty.filed.congr rfl (Nat.le_refl _), h.registry.erase name, fun other d hd => ?_⟩
      rw [SortedMap.get?_erase_eq h.registry] at hd
      split at hd
      · cases hd
      · exact hempty.named other d hd
    exact herased.congr (sameCatalog_dropEach _ _)

/-- A table that is made is entered in its database; if nothing is made nothing changes. -/
theorem createTable (h : e.Catalog names) (d : Nat) (name : String) (schema : Schema) :
    ∃ names', ((Engine.createTable d name schema).run e).2.Catalog names' := by
  obtain ⟨names', -, hfiled⟩ := h.filed.createTable d name schema
  refine ⟨names', ?_⟩
  rw [run_createTable] at hfiled ⊢
  split at hfiled
  · rename_i hthere
    rw [if_pos hthere]
    exact h.withFiled hfiled rfl rfl fun _ => rfl
  · rename_i hnew
    rw [if_neg hnew]
    exact h.withFiled hfiled rfl rfl fun d' => (database_withTables e d _ d').1

/-- A table is entered once its page files have been loaded, and forgotten if that fails. -/
theorem openTable (h : e.Catalog names) (d : Nat) (name : String) (schema : Schema) :
    ∃ names', ((Engine.openTable d name schema).run e).2.Catalog names' := by
  obtain ⟨names', -, hfiled⟩ := h.filed.enter d name schema
  rw [run_openTable]
  split
  · exact ⟨names, h⟩
  dsimp only
  split
  · exact ⟨names', h.withFiled (hfiled.congr rfl (Nat.le_refl _)) rfl rfl
      fun d' => (database_withTables e d _ d').1⟩
  · exact ⟨names, h.congr ⟨rfl, rfl, rfl, Nat.le_succ _⟩⟩

theorem dropTable (h : e.Catalog names) (d : Nat) (name : String) :
    ((Engine.dropTable d name).run e).2.Catalog names := by
  have hfiled := h.filed.dropTable d name
  rw [run_dropTable] at hfiled ⊢
  cases hfound : e.table d name with
  | error failure => exact h
  | ok table =>
    rw [hfound] at hfiled
    exact h.withFiled hfiled rfl rfl fun d' => (database_withTables e d _ d').1

theorem connect (h : e.Catalog names) (name : String) :
    ((Engine.connect name).run e).2.Catalog names := by
  rw [run_connect]
  cases e.databaseNumber name with
  | error failure => exact h
  | ok number => exact h.congr ⟨rfl, rfl, rfl, Nat.le_refl _⟩

end Catalog

namespace Catalogued

/-- The work of a statement creates or drops a table, or is work on rows. -/
theorem perform (h : Catalogued config disk e) (client : Session) (statement : Statement)
    (tables : List Table) :
    Catalogued config disk ((Engine.perform client statement tables).run e).2 := by
  have hrest (hstatement : altersCatalog statement = false) :
      Catalogued config disk ((Engine.perform client statement tables).run e).2 := by
    obtain ⟨space, hspace⟩ := perform_eq_withSpace hstatement e client tables
    rw [hspace]
    exact h.work ⟨rfl, rfl, rfl, Nat.le_refl _⟩
  cases statement with
  | createTable name schema =>
    simp only [Engine.perform, Action.run_bind_pure]
    exact h.createTable client.database name schema
  | dropTable name =>
    simp only [Engine.perform, Action.run_bind_pure]
    exact h.dropTable client.database name
  | _ => exact hrest rfl

theorem finish (h : Catalogued config disk e) (session : Nat) (running : Running) :
    Catalogued config disk (Engine.finish session running e).2 := by
  have hperform := h.perform (e.session session) running.statement running.tables
  rw [finish_snd]
  split
  · exact hperform.work (sameCatalog_releaseEach _ session running.mode running.tables)
  · exact hperform

theorem takeLocks (h : Catalogued config disk e) (session : Nat) (running : Running)
    (pending : List Table) : Catalogued config disk (Engine.takeLocks session running pending e).2 := by
  induction pending generalizing e with
  | nil => exact h.finish session running
  | cons table rest ih =>
    rw [takeLocks_cons]
    split
    · exact ih (h.work ⟨rfl, rfl, rfl, Nat.le_refl _⟩)
    · exact h.work ⟨rfl, rfl, rfl, Nat.le_refl _⟩

/-- What sessions do, with databases that are registered and with others, is among it. -/
theorem after (h : Catalogued config disk e) (m : Move) : Catalogued config disk (e.after m) := by
  cases m with
  | createDatabase name => exact h.createDatabase name
  | connect name => exact h.connect name
  | beginTransaction session => exact h.work ⟨rfl, rfl, rfl, Nat.le_refl _⟩
  | commit session => exact h.work ⟨rfl, rfl, rfl, Nat.le_refl _⟩
  | disconnect session => exact h.work ⟨rfl, rfl, rfl, Nat.le_refl _⟩
  | execute session statement =>
    rw [Engine.after, execute_eq]
    cases e.tables (e.session session).database (lockPlan statement).1 with
    | error failure => exact h
    | ok tables => exact h.takeLocks session _ tables
  | resume r =>
    rw [Engine.after, resume_eq]
    have hwoken : Catalogued config disk (e.woken r) := h.work ⟨rfl, rfl, rfl, Nat.le_refl _⟩
    split
    · exact hwoken.takeLocks r.session _ _
    · exact h.work ⟨rfl, rfl, rfl, Nat.le_refl _⟩

/-- The catalog is in order after every run. -/
theorem catalog (h : Catalogued config disk e) : ∃ names, e.Catalog names := by
  induction h with
  | start =>
    refine ⟨_, filed_start config disk, SortedMap.ascending_empty, fun name d hd => ?_⟩
    cases hd
  | createDatabase _ name ih => exact ih.imp fun _ hcatalog => hcatalog.createDatabase name
  | dropDatabase _ name ih => exact ih.imp fun _ hcatalog => hcatalog.dropDatabase name
  | connect _ name ih => exact ih.imp fun _ hcatalog => hcatalog.connect name
  | createTable _ d name schema ih =>
    obtain ⟨names, hcatalog⟩ := ih
    exact hcatalog.createTable d name schema
  | openTable _ d name schema ih =>
    obtain ⟨names, hcatalog⟩ := ih
    exact hcatalog.openTable d name schema
  | dropTable _ d name ih => exact ih.imp fun _ hcatalog => hcatalog.dropTable d name
  | work _ hsame ih => exact ih.imp fun _ hcatalog => hcatalog.congr hsame

end Catalogued

/-! ## Shared names -/

/-- Databases that a separator tells apart have names that do not run into what follows them. -/
theorem Catalog.name_ne_of_separates {c : Char} (h : e.Catalog names) (hd : d ≠ d')
    (hseparates : e.Separates c d d') :
    c ∉ (e.database d).name.toList ∧ c ∉ (e.database d').name.toList ∧
      (e.database d).name ≠ (e.database d').name := by
  obtain ⟨hfirst, hsecond, ⟨⟨name, hname⟩, other, hother⟩ | hne⟩ := hseparates.resolve_left hd
  · refine ⟨hfirst, hsecond, fun heq => hd ?_⟩
    -- one name is registered for one database
    rw [(h.named name d hname).1, (h.named other d' hother).1] at heq
    rw [heq, hother] at hname
    exact (Option.some.inj hname).symm
  · exact ⟨hfirst, hsecond, hne⟩

/-- In whatever way databases and tables were created and dropped, different tables have different
qualified names and no page file in common if they are tables of one database or of databases that
the separators tell apart. -/
theorem names_apart (h : Catalogued config disk e) (ht : e.Finds d t) (hu : e.Finds d' u)
    (hne : t ≠ u) :
    (e.Separates '.' d d' → t.qualifiedName ≠ u.qualifiedName) ∧
      (e.Separates '#' d d' → ∀ m n,
        PageFile.name t.database t.name m ≠ PageFile.name u.database u.name n) := by
  obtain ⟨names, hcatalog⟩ := h.catalog
  obtain ⟨name, ht⟩ := ht
  obtain ⟨other, hu⟩ := hu
  obtain ⟨-, hdatabase, -⟩ := hcatalog.filed.found d name t ht
  obtain ⟨-, hdatabase', -⟩ := hcatalog.filed.found d' other u hu
  by_cases hd : d = d'
  · subst hd
    have hqualified : t.qualifiedName ≠ u.qualifiedName := fun heq =>
      hne (hcatalog.filed.eq_of_qualifiedName ht hu heq)
    refine ⟨fun _ => hqualified, fun _ m n heq => hqualified ?_⟩
    rw [hdatabase, hdatabase'] at heq
    rw [Table.qualifiedName, Table.qualifiedName, hdatabase, hdatabase',
      PageFile.table_eq_of_name_eq heq]
  · refine ⟨fun hseparates heq => ?_, fun hseparates m n heq => ?_⟩
    · obtain ⟨hfirst, hsecond, hdiffer⟩ := hcatalog.name_ne_of_separates hd hseparates
      have hchars := congrArg String.toList heq
      simp only [Table.qualifiedName, hdatabase, hdatabase', String.toList_append,
        List.append_assoc] at hchars
      exact hdiffer (String.toList_inj.1 (eq_of_append_separator hfirst hsecond hchars))
    · obtain ⟨hfirst, hsecond, hdiffer⟩ := hcatalog.name_ne_of_separates hd hseparates
      rw [hdatabase, hdatabase'] at heq
      exact hdiffer (PageFile.database_eq_of_name_eq hfirst hsecond heq)

/-- Two databases with one table each. -/
def twoTables (database table database' table' : String) : Engine :=
  let e := ((start {} {}).createDatabase database).createDatabase database'
  ((createTable 2 table' (keysOnly "k")).run ((createTable 1 table (keysOnly "k")).run e).2).2

theorem catalogued_twoTables (database table database' table' : String) :
    Catalogued {} {} (twoTables database table database' table') :=
  .createTable (.createTable (.createDatabase (.createDatabase .start database) database') 1 table _) 2
    table' _

/-- Two databases call their tables alike. -/
theorem names_apart_stock :
    Catalogued {} {} (twoTables "north" "stock" "south" "stock") ∧
      (twoTables "north" "stock" "south" "stock").Finds 1 ⟨1, "north", "stock", keysOnly "k"⟩ ∧
      (twoTables "north" "stock" "south" "stock").Finds 2 ⟨2, "south", "stock", keysOnly "k"⟩ ∧
      "north" ++ "." ++ "stock" ≠ "south" ++ "." ++ "stock" ∧
      ∀ m n, PageFile.name "north" "stock" m ≠ PageFile.name "south" "stock" n := by
  have hcatalogued := catalogued_twoTables "north" "stock" "south" "stock"
  have hnorth : (twoTables "north" "stock" "south" "stock").Finds 1
      ⟨1, "north", "stock", keysOnly "k"⟩ := ⟨"stock", by decide +kernel⟩
  have hsouth : (twoTables "north" "stock" "south" "stock").Finds 2
      ⟨2, "south", "stock", keysOnly "k"⟩ := ⟨"stock", by decide +kernel⟩
  have hregistered : (twoTables "north" "stock" "south" "stock").Registered 1 ∧
      (twoTables "north" "stock" "south" "stock").Registered 2 :=
    ⟨⟨"north", by decide +kernel⟩, "south", by decide +kernel⟩
  obtain ⟨hqualified, hfiles⟩ := names_apart hcatalogued hnorth hsouth (by decide)
  refine ⟨hcatalogued, hnorth, hsouth, hqualified (.inr ⟨?_, ?_, .inl hregistered⟩),
    hfiles (.inr ⟨?_, ?_, .inl hregistered⟩)⟩ <;> decide +kernel

/-- A database that is dropped and created again under its name, with a table in the old one, where a
session is still connected, and one in the new one. -/
def revived : Engine :=
  let e := ((connect "db").run ((start {} {}).createDatabase "db")).2
  let e := ((dropDatabase "db").run e).2.createDatabase "db"
  let e := (e.execute 1 (.createTable "t" (keysOnly "k"))).2
  ((createTable 2 "t" (keysOnly "k")).run e).2

/-- The dot runs into the names of databases and tables, the separator of the page files does, and the
database that was dropped shares its name with the one that is registered. -/
theorem names_shared :
    (Catalogued {} {} (twoTables "a.b" "c" "a" "b.c") ∧
      ∃ t u, (twoTables "a.b" "c" "a" "b.c").Finds 1 t ∧ (twoTables "a.b" "c" "a" "b.c").Finds 2 u ∧
        t ≠ u ∧ t.qualifiedName = u.qualifiedName) ∧
    (Catalogued {} {} (twoTables "x#_#y" "z" "x" "y#_#z") ∧
      ∃ t u, (twoTables "x#_#y" "z" "x" "y#_#z").Finds 1 t ∧
        (twoTables "x#_#y" "z" "x" "y#_#z").Finds 2 u ∧ t ≠ u ∧
        ∀ n, PageFile.name t.database t.name n = PageFile.name u.database u.name n) ∧
    (Catalogued {} {} revived ∧
      ∃ t u, revived.Finds (revived.session 1).database t ∧ revived.Finds 2 u ∧ t ≠ u ∧
        t.qualifiedName = u.qualifiedName ∧
        ∀ n, PageFile.name t.database t.name n = PageFile.name u.database u.name n) := by
  refine ⟨⟨catalogued_twoTables _ _ _ _, ?dot⟩, ⟨catalogued_twoTables _ _ _ _, ?files⟩, ?catalogued,
    ?revived⟩
  case dot =>
    exact ⟨⟨1, "a.b", "c", keysOnly "k"⟩, ⟨2, "a", "b.c", keysOnly "k"⟩, ⟨"c", by decide +kernel⟩,
      ⟨"b.c", by decide +kernel⟩, by decide, by decide⟩
  case files =>
    have hstem : PageFile.tableStem "x#_#y" "z" = PageFile.tableStem "x" "y#_#z" := by decide
    refine ⟨⟨1, "x#_#y", "z", keysOnly "k"⟩, ⟨2, "x", "y#_#z", keysOnly "k"⟩, ⟨"z", by decide +kernel⟩,
      ⟨"y#_#z", by decide +kernel⟩, by decide, fun n => ?_⟩
    show PageFile.name "x#_#y" "z" n = PageFile.name "x" "y#_#z" n
    rw [PageFile.name, hstem, PageFile.name]
  case catalogued =>
    have hdropped : Catalogued {} {} _ :=
      .dropDatabase (.connect (.createDatabase .start "db") "db") "db"
    exact .createTable (.after (.createDatabase hdropped "db")
      (.execute 1 (.createTable "t" (keysOnly "k")))) 2 "t" _
  case revived =>
    exact ⟨⟨1, "db", "t", keysOnly "k"⟩, ⟨2, "db", "t", keysOnly "k"⟩, ⟨"t", by decide +kernel⟩,
      ⟨"t", by decide +kernel⟩, by decide, rfl, fun _ => rfl⟩

end Engine

end PageDb
