/-
# HummingbirdRpms.Lookaside — which bucket a source archive is uploaded to.

Source archives live in a lookaside cache, an S3 bucket keyed by package, file name and hash.  A
package whose entry of `ci/package-overrides.yaml` has a `lookaside_cache_url` has a bucket of its
own, and its sources must not appear in the public one.

The bucket is chosen in three places:
* `_get_package_lookaside_bucket` of `ci/check_upstream_versions.py`, which maps the URL and raises on
  one it does not know; `_upload_to_lookaside`, the only caller of the upload script there, passes
  the result with `-b` (`uploadToLookaside_bucket`);
* `ci/upload-to-lookaside-cache.sh`, which falls back to a default of its own when no `-b` is given
  (`getopts_argv` reads a command's arguments back);
* `lookaside_upload_commands` of the CVE helper, which prints commands without `-b`.
-/
import HummingbirdRpms.Env

namespace HummingbirdRpms

open Lib Lib.Text Lib.Exec

/-! ## `ci/check_upstream_versions.py` -/

/-- `LOOKASIDE_BUCKET_BY_CACHE_URL` -/
def lookasideBucketByCacheUrl : List (Str × Str) :=
  [("https://dp9y1t38f72i0.cloudfront.net/", "arr-hummingbird-prod-private-dist-git-cache")]

/-- `DEFAULT_LOOKASIDE_BUCKET` -/
def defaultLookasideBucket : Str := "arr-hummingbird-prod-dist-git-cache"

/-- The parsed `ci/package-overrides.yaml`, an empty mapping when the file is absent or empty. -/
def loadOverrides (env : Env) (overrides : Option File) : Except Exn Value :=
  match overrides with
  | none => .ok (.dict [])
  | some f => do return (← env.safeLoad (← decodeText "package-overrides.yaml" f)).orDict

/-- The message for a cache URL without a bucket. -/
def unmappedCacheUrl (package : Str) (cacheUrl : Value) : Str :=
  package ++ ": lookaside_cache_url ".toList ++ cacheUrl.repr ++
    (" has no entry in LOOKASIDE_BUCKET_BY_CACHE_URL -- add its backing S3 bucket name " ++
      "there before uploading, so this package's sources can't be " ++
      "published to the public bucket by mistake.").toList

/-- The bucket of a cache URL: the public one for no URL, the mapped one for a known URL. -/
def bucketOfCacheUrl (package : Str) (cacheUrl : Value) : Except Exn Str :=
  if !cacheUrl.truthy then .ok defaultLookasideBucket
  else
    match cacheUrl with
    | .str url =>
        match lookasideBucketByCacheUrl.lookup url with
        | some bucket => .ok bucket
        | none => .error (.raised .valueError (unmappedCacheUrl package cacheUrl))
    | .list _ => .error (.raised .typeError "unhashable type: 'list'")
    | .dict _ => .error (.raised .typeError "unhashable type: 'dict'")
    | _ => .error (.raised .valueError (unmappedCacheUrl package cacheUrl))

/-- The value of `lookaside_cache_url` in a package's entry. -/
def cacheUrlOf (overrides : Value) (package : Str) : Except Exn Value := do
  (← overrides.get package).orDict.get "lookaside_cache_url"

/-- `_get_package_lookaside_bucket` -/
def getPackageLookasideBucket (env : Env) (overrides : Option File) (package : Str) :
    Except Exn Str := do
  bucketOfCacheUrl package (← cacheUrlOf (← loadOverrides env overrides) package)

/-- The upload `_upload_to_lookaside` asks the script for. -/
def uploadCommand (filepath package hashtype bucket : Str) : UploadCommand :=
  ⟨filepath, package, some (lowerAscii hashtype), some bucket⟩

/-- What the file of an upload holds, given its path below `rpms/<package>/`. -/
def uploadedFile (w : World) (package filepath : Str) : Option File :=
  (w.packageDir package).read (filepath.drop ("rpms/".toList ++ package ++ "/".toList).length)

/-- `_upload_to_lookaside` -/
def uploadToLookaside (env : Env) (filepath package hashtype : Str) : Tool Unit := do
  raiseIf (!env.uploadScriptExists)
    (.raised .osError "Upload script not found: ci/upload-to-lookaside-cache.sh")
  let bucket ← lift (getPackageLookasideBucket env (← get).overrides package)
  let cmd := uploadCommand filepath package hashtype bucket
  modify fun w => w.record (.upload cmd (uploadedFile w package filepath))
  let result ← lift (env.upload cmd).run
  let stderr := if strip result.stderr = [] then strip result.stdout else strip result.stderr
  raiseIf (result.returncode ≠ 0) (.raised .runtimeError
    ("Lookaside upload failed (exit ".toList ++ ofInt result.returncode ++ "): ".toList ++ stderr))

/-! ## `ci/upload-to-lookaside-cache.sh` -/

/-- The variables the script's option loop sets. -/
structure ScriptOptions where
  file : Str := []
  package : Str := []
  nameSpace : Str := "rpms"
  hashtype : Str := "sha512"
  bucket : Str := "arr-hummingbird-prod-dist-git-cache"
  deriving DecidableEq

/-- What one option of `getopts "f:p:n:t:b:h"` does; `-h` and an unknown letter end the script. -/
def ScriptOptions.set (o : ScriptOptions) (letter : Char) (arg : Str) : Option ScriptOptions :=
  if letter = 'f' then some { o with file := arg }
  else if letter = 'p' then some { o with package := arg }
  else if letter = 'n' then some { o with nameSpace := arg }
  else if letter = 't' then some { o with hashtype := arg }
  else if letter = 'b' then some { o with bucket := arg }
  else none

/-- The option loop: an option's argument is the rest of its word or the next word, and the loop
stops at `--` and at the first word that is not an option. -/
def getopts : ScriptOptions → List Str → Option ScriptOptions
  | o, ['-', '-'] :: _ => some o
  | o, ['-', letter] :: arg :: words => do getopts (← o.set letter arg) words
  | _, [['-', _]] => none
  | o, ('-' :: letter :: arg) :: words => do getopts (← o.set letter arg) words
  | o, _ => some o

namespace UploadCommand

variable (cmd : UploadCommand)

/-- The words after the script's name. -/
def argv : List Str :=
  ["-f".toList, cmd.file, "-p".toList, cmd.package] ++
    (cmd.hashtype.elim [] fun t => ["-t".toList, t]) ++
    (cmd.bucket.elim [] fun b => ["-b".toList, b])

/-- The bucket the script copies the file to. -/
def target : Str := cmd.bucket.getD ({} : ScriptOptions).bucket

/-- **`getopts_argv`** — the script reads back the arguments it is given, and its own default for
what is left out. -/
theorem getopts_argv :
    getopts {} cmd.argv =
      some { file := cmd.file
             package := cmd.package
             hashtype := cmd.hashtype.getD ({} : ScriptOptions).hashtype
             bucket := cmd.target } := by
  obtain ⟨file, package, hashtype, bucket⟩ := cmd
  cases hashtype <;> cases bucket <;> rfl

end UploadCommand

/-- The script's default is the public bucket. -/
theorem scriptDefault : ({} : ScriptOptions).bucket = defaultLookasideBucket := rfl

/-! ## `.cursor/skills/cve/lib/vcs.py` -/

/-- Where the CVE helper stages a file before it is uploaded. -/
def staged (src : Str) : Str := "/tmp/".toList ++ basename src

/-- `lookaside_upload_commands`: the lines it prints. -/
def lookasideUploadCommands (files : List Str) (package : Str) : List Str :=
  files.flatMap fun src =>
    ["cp ".toList ++ src ++ " ".toList ++ staged src,
      "./ci/upload-to-lookaside-cache.sh -f ".toList ++ staged src ++ " -p ".toList ++ package]

/-- The uploads the printed lines stand for. -/
def lookasideUploads (files : List Str) (package : Str) : List UploadCommand :=
  files.map fun src => ⟨staged src, package, none, none⟩

/-- The command line of an upload. -/
def UploadCommand.commandLine (cmd : UploadCommand) : Str :=
  join " " ("./ci/upload-to-lookaside-cache.sh".toList :: cmd.argv)

/-- What is printed for each file is a copy and the command line of its upload. -/
theorem lookasideUploadCommands_eq (files : List Str) (package : Str) :
    lookasideUploadCommands files package =
      files.flatMap fun src =>
        ["cp ".toList ++ src ++ " ".toList ++ staged src,
          UploadCommand.commandLine ⟨staged src, package, none, none⟩] := by
  simp [lookasideUploadCommands, UploadCommand.commandLine, UploadCommand.argv, join]

/-! ## What an upload changes -/

/-- From `w` to `w'` the log has grown and nothing else has changed. -/
def LogGrows (w w' : World) : Prop := ∃ es, w' = { w with log := es ++ w.log }

instance : Std.Refl LogGrows := ⟨fun _ => ⟨[], rfl⟩⟩

instance : IsTrans World LogGrows where
  trans := by
    rintro _ _ _ ⟨es₁, rfl⟩ ⟨es₂, rfl⟩
    exact ⟨es₂ ++ es₁, by rw [List.append_assoc]⟩

theorem steps_upload_log {env : Env} {filepath package hashtype : Str} :
    Steps LogGrows (uploadToLookaside env filepath package hashtype) := by
  refine steps_bind steps_raiseIf fun _ => steps_bind steps_get fun w => ?_
  refine steps_bind (steps_lift _) fun bucket => steps_bind ?_ fun _ => ?_
  · exact steps_modify fun w => ⟨[_], rfl⟩
  · exact steps_bind (steps_lift _) fun _ => steps_raiseIf

/-! ## How an upload ends -/

/-- An upload goes through. -/
def Uploads (env : Env) (overrides : Option File) (filepath package hashtype : Str) : Prop :=
  env.uploadScriptExists = true ∧
    ∃ bucket, getPackageLookasideBucket env overrides package = .ok bucket ∧
      ∃ stdout stderr, env.upload (uploadCommand filepath package hashtype bucket) = .exited 0 stdout stderr

/-- An upload raises what is neither a `RuntimeError` nor an `OSError`: the bucket cannot be told from
the overrides, or the script printed what is not text. -/
def UploadUnhandled (env : Env) (overrides : Option File) (filepath package hashtype : Str) : Prop :=
  env.uploadScriptExists = true ∧
    (Unhandled (getPackageLookasideBucket env overrides package) ∨
      ∃ bucket, getPackageLookasideBucket env overrides package = .ok bucket ∧
        env.upload (uploadCommand filepath package hashtype bucket) = .undecodable)

section

variable {env : Env} {filepath package hashtype : Str} {w : World}

theorem uploadToLookaside_ok_iff :
    (∃ w', uploadToLookaside env filepath package hashtype w = .ok () w') ↔
      Uploads env w.overrides filepath package hashtype := by
  unfold Uploads
  constructor
  · rintro ⟨w', h⟩
    simp only [uploadToLookaside, bind_ok_iff, raiseIf_ok_iff, lift_ok_iff, Proc.run_ok_iff] at h
    obtain ⟨_, _, ⟨hscript, rfl⟩, _, _, hget, bucket, _, ⟨hbucket, rfl⟩, _, _, hmod, c, _,
      ⟨hrun, rfl⟩, hcode, _⟩ := h
    obtain ⟨rfl, rfl⟩ := EStateM.Result.ok.inj hget
    have hzero : c.returncode = 0 := by simpa using hcode
    exact ⟨by simpa using hscript, bucket, hbucket, c.stdout, c.stderr, hzero ▸ hrun⟩
  · rintro ⟨hscript, bucket, hbucket, stdout, stderr, hrun⟩
    refine ⟨w.record (.upload (uploadCommand filepath package hashtype bucket)
      (uploadedFile w package filepath)), ?_⟩
    rw [uploadCommand] at hrun
    simp [uploadToLookaside, run_bind, raiseIf, hscript, hbucket, hrun, Proc.run, uploadCommand]

/-- An upload that went through has logged the command and what its file held, and changed nothing
else. -/
theorem uploadToLookaside_ok {u : Unit} {w' : World}
    (h : uploadToLookaside env filepath package hashtype w = .ok u w') :
    ∃ bucket, w' = w.record
      (.upload (uploadCommand filepath package hashtype bucket) (uploadedFile w package filepath)) := by
  simp only [uploadToLookaside, bind_ok_iff, raiseIf_ok_iff, lift_ok_iff] at h
  obtain ⟨_, _, ⟨_, rfl⟩, _, _, hget, bucket, _, ⟨_, rfl⟩, _, _, hmod, _, _, ⟨_, rfl⟩, _, hret⟩ := h
  obtain ⟨rfl, rfl⟩ := EStateM.Result.ok.inj hget
  obtain ⟨_, rfl⟩ := EStateM.Result.ok.inj hmod
  exact ⟨bucket, hret⟩

theorem unhandled_uploadToLookaside :
    UnhandledIn (uploadToLookaside env filepath package hashtype) w ↔
      UploadUnhandled env w.overrides filepath package hashtype := by
  have hfailed : ∀ m, (Exn.raised .runtimeError m).isRuntimeOrOsError = true := fun _ => rfl
  unfold UploadUnhandled uploadToLookaside
  rw [unhandledIn_raiseIf_bind rfl]
  simp only [unhandledIn_get_bind, unhandledIn_lift_bind, unhandledIn_modify_bind, Proc.unhandled_run,
    not_unhandledIn_raiseIf (hfailed _), and_false, exists_false, or_false, Bool.not_eq_true',
    Bool.not_eq_false]

end

/-! ## The bucket of an upload -/

/-- From `w` to `w'` the log has only grown, and by no upload but those of `package` to the bucket its
overrides give it. -/
def UploadsToOwnBucket (env : Env) (package : Str) (w w' : World) : Prop :=
  w'.overrides = w.overrides ∧
    ∃ es, w'.log = es ++ w.log ∧ ∀ cmd file, .upload cmd file ∈ es →
      cmd.package = package ∧
        ∃ bucket, getPackageLookasideBucket env w.overrides package = .ok bucket ∧
          cmd.bucket = some bucket

namespace UploadsToOwnBucket

variable {env : Env} {package : Str}

instance : Std.Refl (UploadsToOwnBucket env package) := ⟨fun _ => ⟨rfl, [], rfl, by simp⟩⟩

instance : IsTrans World (UploadsToOwnBucket env package) where
  trans := by
    rintro w₁ w₂ w₃ ⟨ho₁, es₁, hl₁, h₁⟩ ⟨ho₂, es₂, hl₂, h₂⟩
    refine ⟨ho₂.trans ho₁, es₂ ++ es₁, by rw [hl₂, hl₁, List.append_assoc], fun cmd file hcmd => ?_⟩
    rcases List.mem_append.mp hcmd with h | h
    · rw [← ho₁]
      exact h₂ cmd file h
    · exact h₁ cmd file h

/-- A write that leaves the overrides and the log alone uploads nothing. -/
theorem of_same {w w' : World} (ho : w'.overrides = w.overrides) (hl : w'.log = w.log) :
    UploadsToOwnBucket env package w w' := ⟨ho, [], hl, by simp⟩

end UploadsToOwnBucket

/-- **`steps_uploadToLookaside`** — an upload goes to the package's own bucket, however it ends. -/
theorem steps_uploadToLookaside {env : Env} {filepath package hashtype : Str} :
    Steps (UploadsToOwnBucket env package) (uploadToLookaside env filepath package hashtype) := by
  refine steps_bind steps_raiseIf fun _ w => ?_
  refine step_bind (steps_get w) fun _ _ hget => ?_
  obtain ⟨rfl, rfl⟩ := EStateM.Result.ok.inj hget
  refine step_bind (steps_lift _ w) fun bucket _ hlift => ?_
  obtain ⟨hbucket, rfl⟩ := lift_ok_iff.mp hlift
  refine step_bind ?_ fun _ t _ => ?_
  · refine ⟨rfl, [_], rfl, ?_⟩
    intro cmd file hcmd
    obtain ⟨rfl, -⟩ := Event.upload.inj (List.mem_singleton.mp hcmd)
    exact ⟨rfl, bucket, hbucket, rfl⟩
  · exact steps_bind (steps_lift _) (fun _ => steps_raiseIf) t

end HummingbirdRpms
