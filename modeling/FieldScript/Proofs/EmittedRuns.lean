/-
# Running later is running now

A program can be run from its source, or be written to an artifact that is run
later.  Both print the same.  The chunk that is compiled from the source, with the
values that are set, is written as bytes and read back as it was
(`perform_compiled`), and it passes the verifier, so both calls run one chunk with
one seed (`run_verified`).  An artifact that is read and written again has the same
bytes for the same reason.

A call is followed through its files: it looks at its program, and what is left is
a report or a file to write (`run_eq`).  A file that was written is read back
(`Files.get?_put`), if its path leads to a name that a file can have.
-/

import FieldScript.Proofs.Invocations
import FieldScript.Proofs.Presets
import FieldScript.Proofs.RoundTrip

namespace FieldScript

/-! ### Files -/

namespace Files

variable {fs : Files} {e : Entry} {content : List UInt8}

theorem get?_replace (files : List (Entry × List UInt8)) (e other : Entry) (content : List UInt8) :
    get? ⟨files.map fun f => if f.1 = e then (e, content) else f⟩ other =
      if other = e then (get? ⟨files⟩ e).map fun _ => content else get? ⟨files⟩ other := by
  unfold get?
  induction files with
  | nil => simp
  | cons f files ih =>
    by_cases hf : f.1 = e
    · by_cases hother : other = e
      · simp [hf, hother]
      · simpa [hf, hother, Ne.symm hother] using ih
    · by_cases hname : f.1 = other
      · have hother : ¬other = e := hname ▸ hf
        simp [hname, hother]
      · simpa [hf, hname] using ih

theorem get?_append (files : List (Entry × List UInt8)) (e other : Entry) (content : List UInt8) :
    get? ⟨files ++ [(e, content)]⟩ other =
      (get? ⟨files⟩ other).or (if other = e then some content else none) := by
  rw [get?, get?, List.find?_append, Option.map_or]
  congr 1
  by_cases hother : other = e
  · simp [hother]
  · simp [hother, Ne.symm hother]

/-- A file that was written is found, and so is every other one as before. -/
theorem get?_put (fs : Files) (e other : Entry) (content : List UInt8) :
    (fs.put e content).get? other = if other = e then some content else fs.get? other := by
  unfold put
  split
  · rename_i hsome
    obtain ⟨old, hold⟩ := Option.isSome_iff_exists.1 hsome
    rw [get?_replace, hold, Option.map_some]
  · rename_i hnone
    have hnone : fs.get? e = none := by simpa using hnone
    rw [get?_append]
    by_cases hother : other = e
    · rw [if_pos hother, if_pos hother, hother, hnone, Option.none_or]
    · rw [if_neg hother, if_neg hother, Option.or_none]

/-- A path leads to an entry that can be written. -/
def Leads (path : String) (e : Entry) : Prop :=
  resolve path = .ok (.entry e) ∧ e.name.utf8ByteSize ≤ maxName

namespace Leads

variable {path : String}

theorem lookup_eq (h : Leads path e) (fs : Files) : fs.lookup e = .ok (fs.get? e) := by
  rw [lookup, if_neg (Nat.not_lt.2 h.2)]

theorem write_eq (h : Leads path e) (fs : Files) (content : List UInt8) :
    fs.write path content = .ok (fs.put e content) := by
  rw [write, h.1]
  show (fs.lookup e >>= fun _ => Except.ok (fs.put e content)) = _
  rw [h.lookup_eq]
  rfl

theorem read_eq (h : Leads path e) (hcontent : fs.get? e = some content) :
    fs.read path = .ok content := by
  simp only [read, h.1, bind, Except.bind, h.lookup_eq, hcontent]
  rfl

/-- What can be written once can be written with any content. -/
theorem of_write (h : (fs.write path content).isOk = true) : ∃ e, Leads path e := by
  unfold write at h
  cases hpath : resolve path with
  | error fault =>
    rw [hpath] at h
    cases h
  | ok destination =>
    rw [hpath] at h
    cases destination with
    | directory place => cases h
    | entryAsDirectory e => cases h
    | beyond e => cases h
    | entry e =>
      refine ⟨e, hpath, ?_⟩
      by_contra hlong
      have hlookup : fs.lookup e = .error .nameTooLong := if_pos (Nat.not_le.1 hlong)
      have hrun : (fs.lookup e >>= fun _ => Except.ok (fs.put e content)).isOk = true := h
      rw [hlookup] at hrun
      cases hrun

theorem ne_empty (h : Leads path e) : path ≠ "" := by
  rintro rfl
  cases h.1

end Leads

/-- The file holds the source of a program. -/
def HoldsSource (fs : Files) (file : String) (program : Expr) : Prop :=
  ∃ content source, fs.read file = .ok content ∧
    String.fromUTF8? content.toByteArray = some source ∧ Expr.ofSource source = .ok program

end Files

namespace Command

open Arguments Invocation

/-! ### What a call does -/

/-- What is left of a call once its program was looked at. -/
def complete (inv : Invocation) (p : Performance) (fs : Files) : Outcome × Files :=
  match p.finish with
  | .done => (.of inv p.stdout p.log none, fs)
  | .failed report => (.of inv p.stdout p.log (some report), fs)
  | .write path bytes =>
    match fs.write path bytes with
    | .ok fs' => (.of inv p.stdout (p.log ++ [.wroteProgram path bytes.length]) none, fs')
    | .error e => (.of inv p.stdout p.log (some (.unwritable path e)), fs)

/-- **A call looks at its program and completes.** -/
theorem run_eq {fs : Files} {args : List String} {inv : Invocation} {kind : FileKind}
    {content : List UInt8} (hargs : ofArguments args = .ok inv)
    (hkind : FileKind.of? inv.file = some kind) (hread : fs.read inv.file = .ok content) :
    (run Files.disk args).run fs = complete inv (perform inv kind content) fs := by
  have hdisk : (Files.disk.read inv.file).run fs = (.ok content, fs) := by
    show (fs.read inv.file, fs) = _
    rw [hread]
  simp only [run, hargs, runInvocation, hkind, StateT.run_bind, hdisk, complete]
  show StateT.run (match (perform inv kind content).finish with
    | .done => _
    | .failed report => _
    | .write path bytes => _) fs = _
  cases (perform inv kind content).finish with
  | done => rfl
  | failed report => rfl
  | write path bytes =>
    have hwrite : (Files.disk.write path bytes).run fs = match fs.write path bytes with
        | .ok fs' => (.ok (), fs')
        | .error e => (.error e, fs) := by
      show StateT.run (match fs.write path bytes with
        | .ok fs' => _
        | .error e => _) fs = _
      cases fs.write path bytes <;> rfl
    dsimp only
    rw [StateT.run_bind, hwrite]
    cases fs.write path bytes <;> rfl

section Used

variable {fs : Files} {args : List String} {inv : Invocation} {kind : FileKind}
  {content : List UInt8} (hargs : ofArguments args = .ok inv)
  (hkind : FileKind.of? inv.file = some kind) (hread : fs.read inv.file = .ok content) {c : Chunk}
  {log : List Event} (hperform : perform inv kind content = useChunk inv c log)

include hargs hkind hread hperform

/-- **A call that runs a verified chunk** prints its listing, if that is asked for,
and the summary of the run. -/
theorem run_verified {seed : UInt64} {text : String} (hemit : inv.emit = none)
    (hseed : inv.seed = some seed) (hverify : c.verify = .ok ())
    (htext : if inv.listing then c.listing = .ok text else text = "") :
    ∃ outcome, (run Files.disk args).run fs = (outcome, fs) ∧ outcome.exitCode = 0 ∧
      outcome.stdout = text ++ ((Machine.ofSeed seed).run c).chunk.summary := by
  have hrun : ∀ stdout, runChunk inv c stdout log =
      .printed (stdout ++ ((Machine.ofSeed seed).run c).chunk.summary)
        (log ++ ((Machine.ofSeed seed).run c).log) := by
    intro stdout
    rw [runChunk, hseed, Machine.runChecked, hverify]
    rfl
  have huse : useChunk inv c log = runChunk inv c text log := by
    rw [useChunk, hemit]
    cases hlisting : inv.listing with
    | false =>
      rw [hlisting] at htext
      obtain rfl : text = "" := htext
      rfl
    | true =>
      rw [hlisting] at htext
      have hlist : c.listing = .ok text := htext
      simp only [hlist, if_true]
  rw [run_eq hargs hkind hread, hperform, huse, hrun]
  exact ⟨_, rfl, rfl, rfl⟩

/-- **A call that writes an artifact** writes the bytes of the chunk. -/
theorem run_emit {path : String} {e : Entry} (hemit : inv.emit = some path)
    (hpath : Files.Leads path e) :
    ∃ outcome, (run Files.disk args).run fs = (outcome, fs.put e c.toBytes) ∧
      outcome.exitCode = 0 := by
  have huse : useChunk inv c log = ⟨"", log, .write path c.toBytes⟩ := by rw [useChunk, hemit]
  rw [run_eq hargs hkind hread, hperform, huse, complete]
  simp only [hpath.write_eq]
  exact ⟨_, rfl, rfl⟩

end Used

/-- A source is compiled with the values that are set, and used. -/
theorem perform_source (inv : Invocation) {content : List UInt8} {source : String} {program : Expr}
    (htokens : inv.tokens = false) (hast : inv.ast = false)
    (htext : String.fromUTF8? content.toByteArray = some source)
    (hprogram : Expr.ofSource source = .ok program) (hfault : program.program.fault = none) :
    ∃ log, perform inv .source content =
      useChunk inv (program.laidOut (Chunk.empty.writeAll inv.set)) log := by
  simp only [perform, htext, htokens, useSource, hprogram, hast, seededChunk_eq,
    Expr.compileInto_eq hfault, Bool.false_eq_true, if_false]
  exact ⟨_, rfl⟩

/-- An artifact is read back, and used. -/
theorem perform_compiled {inv : Invocation} {c : Chunk} (hset : inv.set = []) (hc : c.Writable) :
    perform inv .compiled c.toBytes = useChunk inv c [] := by
  have hread := Chunk.ofBytes_append hc []
  rw [List.append_nil] at hread
  simp only [perform, hread, hset]
  rfl

theorem FileKind.ne_empty {path : String} {kind : FileKind} (h : FileKind.of? path = some kind) :
    path ≠ "" := by
  rintro rfl
  have hnone : FileKind.of? "" = none := by decide +kernel
  rw [hnone] at h
  cases h

theorem exists_listing {c : Chunk} {instrs : List Instr} (h : c.instrs? = .ok instrs)
    (listing : Bool) : ∃ text, if listing then c.listing = .ok text else text = "" := by
  cases listing with
  | false => exact ⟨"", rfl⟩
  | true => exact ⟨c.listingOf instrs, by rw [if_pos rfl, Chunk.listing, h]; rfl⟩

/-- **Writing an artifact and running it later is running now.**  For a file with
the source of a program that compiles, any values that are set and any seed, four
calls succeed: one that runs the source, one that writes an artifact, one that runs
the artifact and one that writes it again.  Both runs print the listing, if it is
asked for, and one summary; both artifacts have the same bytes. -/
theorem emit_then_run {fs : Files} {file artifact copy : String} {program : Expr} {f : Chunk}
    {sets : List String} {set : List (String × Single)}
    (hfile : Plain file) (hkind : FileKind.of? file = some .source)
    (hartifact : Plain artifact) (hartifactKind : FileKind.of? artifact = some .compiled)
    (hartifactWrite : (fs.write artifact []).isOk = true)
    (hcopy : Plain copy) (hcopyWrite : (fs.write copy []).isOk = true)
    (hsets : Sets sets set) (hsource : fs.HoldsSource file program)
    (hresult : (program.compileInto Chunk.empty).result = .ok f) (hsize : f.size < UInt32.size)
    (hwritable : ∀ c, (program.compileInto (seededChunk set)).result = .ok c → c.Writable)
    (seed : UInt64) (listing : Bool) :
    ∃ (c : Chunk) (text : String) (written copied : Files) (now emitting later copying : Outcome),
      (program.compileInto (seededChunk set)).result = .ok c ∧
      (if listing then c.listing = .ok text else text = "") ∧
      ((Machine.ofSeed seed).run c).ending = .returned ∧
      (run Files.disk
        (file :: (sets ++ ["--seed", toString seed.toNat] ++ listingOption listing))).run fs =
          (now, fs) ∧
      (run Files.disk (file :: (sets ++ ["--emit", artifact]))).run fs = (emitting, written) ∧
      (run Files.disk
        (artifact :: (["--seed", toString seed.toNat] ++ listingOption listing))).run written =
          (later, written) ∧
      (run Files.disk [artifact, "--emit", copy]).run written = (copying, copied) ∧
      now.exitCode = 0 ∧ emitting.exitCode = 0 ∧ later.exitCode = 0 ∧ copying.exitCode = 0 ∧
      now.stdout = text ++ ((Machine.ofSeed seed).run c).chunk.summary ∧
      later.stdout = now.stdout ∧
      written.read artifact = .ok c.toBytes ∧ copied.read artifact = .ok c.toBytes ∧
      copied.read copy = .ok c.toBytes := by
  obtain ⟨content, source, hread, hutf8, hprogram⟩ := hsource
  obtain ⟨hfault, rfl⟩ := Expr.eq_laidOut_of_result hresult
  have hcompiled : (program.compileInto (seededChunk set)).result =
      .ok (program.laidOut (Chunk.empty.writeAll set)) := by
    rw [seededChunk_eq, Expr.compileInto_eq hfault]
  have hc := hwritable _ hcompiled
  have hsmall : (program.laidOut (Chunk.empty.writeAll set)).size < UInt32.size := by
    rw [program.size_laidOut rfl] at hsize ⊢
    exact hsize
  have hverify := Expr.verify_laidOut rfl hfault hsmall
  have hending := Expr.ending_laidOut rfl hfault hsmall (Machine.ofSeed seed)
  obtain ⟨text, htext⟩ := exists_listing
    (program.instrs?_laidOut (c := Chunk.empty.writeAll set) rfl) listing
  obtain ⟨e, he⟩ := Files.Leads.of_write hartifactWrite
  obtain ⟨d, hd⟩ := Files.Leads.of_write hcopyWrite
  have hfileNe := FileKind.ne_empty hkind
  have hartifactNe := FileKind.ne_empty hartifactKind
  have hwritten : (fs.put e (program.laidOut (Chunk.empty.writeAll set)).toBytes).read artifact =
      .ok (program.laidOut (Chunk.empty.writeAll set)).toBytes :=
    he.read_eq (by rw [Files.get?_put, if_pos rfl])
  -- the two calls on the source
  have hrunArgs := ofArguments_run hfile hfileNe hsets seed listing
  obtain ⟨_, hperform⟩ := perform_source { ofFile file with listing, seed := some seed, set }
    rfl rfl hutf8 hprogram hfault
  obtain ⟨now, hnow, hnowCode, hnowText⟩ :=
    run_verified hrunArgs hkind hread hperform rfl rfl hverify htext
  have hemitArgs := ofArguments_emit hfile hfileNe hsets hartifact hartifactNe
  obtain ⟨_, hperform⟩ := perform_source { ofFile file with emit := some artifact, set }
    rfl rfl hutf8 hprogram hfault
  obtain ⟨emitting, hemitting, hemittingCode⟩ := run_emit hemitArgs hkind hread hperform rfl he
  -- the two calls on the artifact
  have hlaterArgs := ofArguments_run hartifact hartifactNe .nil seed listing
  obtain ⟨later, hlater, hlaterCode, hlaterText⟩ :=
    run_verified hlaterArgs hartifactKind hwritten (perform_compiled rfl hc) rfl rfl hverify htext
  have hcopyArgs := ofArguments_emit hartifact hartifactNe .nil hcopy hd.ne_empty
  obtain ⟨copying, hcopying, hcopyingCode⟩ :=
    run_emit hcopyArgs hartifactKind hwritten (perform_compiled rfl hc) rfl hd
  refine ⟨_, text, _, _, now, emitting, later, copying, hcompiled, htext, hending, hnow, hemitting,
    hlater, hcopying, hnowCode, hemittingCode, hlaterCode, hcopyingCode, hnowText,
    hlaterText.trans hnowText.symm, hwritten, he.read_eq ?_, hd.read_eq ?_⟩
  · rw [Files.get?_put, Files.get?_put, if_pos rfl, ite_self]
  · rw [Files.get?_put, if_pos rfl]

/-- `x = rand(a, c);`, whose value depends on fields and on the seed. -/
def drawnField : Expr := .block [.assign "x" (.call "rand" [.ident "a", .ident "c"])]

/-- A directory with its source. -/
def drawnFiles : Files := Files.empty.putHere "p.glint" drawnField.surface.toUTF8.toList

theorem emit_then_run_drawnField :
    ∃ (written copied : Files) (now emitting later copying : Outcome),
      (run Files.disk ["p.glint", "--set", "a=NaN", "--set=-b=-inf", "--seed", "7", "--bc"]).run
        drawnFiles = (now, drawnFiles) ∧
      (run Files.disk ["p.glint", "--set", "a=NaN", "--set=-b=-inf", "--emit", "o.glintc"]).run
        drawnFiles = (emitting, written) ∧
      (run Files.disk ["o.glintc", "--seed", "7", "--bc"]).run written = (later, written) ∧
      (run Files.disk ["o.glintc", "--emit", "o2.glintc"]).run written = (copying, copied) ∧
      now.exitCode = 0 ∧ later.exitCode = 0 ∧ later.stdout = now.stdout ∧
      copied.read "o2.glintc" = written.read "o.glintc" := by
  have hsets : Sets ["--set", "a=NaN", "--set=-b=-inf"]
      [("a", ⟨0x7fc00000⟩), ("-b", ⟨0xff800000⟩)] :=
    .apart (by decide) rfl (@Sets.joined "-b=-inf" _ _ _ rfl .nil)
  have hartifact : Plain "o.glintc" := by decide
  have hcopy : Plain "o2.glintc" := by decide
  have hresolve : Files.resolve "p.glint" = .ok (.entry ⟨.working, "p.glint"⟩) := by
    rw [Files.resolve, if_neg (by decide +kernel), if_neg (by decide +kernel)]
    exact congrArg Except.ok (by decide +kernel)
  have hread : drawnFiles.read "p.glint" = .ok drawnField.surface.toUTF8.toList := by
    refine Files.Leads.read_eq ⟨hresolve, by decide⟩ ?_
    rw [drawnFiles, Files.putHere, Files.get?_put, if_pos rfl]
  have hprogram : Expr.ofSource drawnField.surface = .ok (.block [drawnField]) :=
    Expr.ofSource_surface_eq (by decide)
  have hresult : ((Expr.block [drawnField]).compileInto Chunk.empty).result =
      .ok ((Expr.block [drawnField]).laidOut Chunk.empty) := by
    rw [Expr.result_compileInto]
    rfl
  have hwritable : ∀ c, ((Expr.block [drawnField]).compileInto (seededChunk
      [("a", ⟨0x7fc00000⟩), ("-b", ⟨0xff800000⟩)])).result = .ok c → c.Writable := by
    intro c hc
    obtain ⟨_, rfl⟩ := Expr.eq_laidOut_of_result hc
    exact ⟨by decide +kernel, by decide +kernel, by decide +kernel⟩
  obtain ⟨c, _, written, copied, now, emitting, later, copying, _, _, _, hnow, hemitting, hlater,
    hcopying, hnowCode, _, hlaterCode, _, _, hsame, hwritten, _, hcopied⟩ :=
    emit_then_run (by decide) (by decide +kernel) hartifact (by decide +kernel) (by decide +kernel)
      hcopy (by decide +kernel) hsets
      ⟨_, _, hread, Artifact.fromUTF8?_utf8 _, hprogram⟩ hresult (by decide) hwritable 7 true
  exact ⟨written, copied, now, emitting, later, copying, hnow, hemitting, hlater, hcopying, hnowCode,
    hlaterCode, hsame, hcopied.trans hwritten.symm⟩

end Command
end FieldScript
