import Thor.CLib.Fgets
import Thor.Security.Authorize

/-!
# The configuration file (core/thor.c, INSTALL.sh)

`INSTALL.sh` writes one line for each value, behind its key. `__load_cfg` takes the first
six lines and strips the keys with `strtok`, for which a key is a set of characters.

- `installCfg`: the file that is written.
- `readCfg`: what is read of a file.
- `configSurvives_iff`: which values come back.
-/

namespace Thor

open CLib

/-! ## Keys -/

def ipK : Str := lit "IP="
def prtK : Str := lit "PORT="
def crtK : Str := lit "CERT="
def logK : Str := lit "LOG="
def dbK : Str := lit "DB="
def taxK : Str := lit "TAX="

/-- The strings that `__load_cfg` cuts out of the file. -/
structure Cfg where
  ip : Str
  port : Str
  cer : Str
  logF : Str
  db : Str
  tax : Str
  deriving DecidableEq

/-! ## Reading -/

/-- One of the six blocks of `__load_cfg`: the value, `NULL` when there is none, and the
file behind its line. -/
def cfgField (key file : Str) : Option Str × Str :=
  match fgets 1023 file with
  | (none, file) => (none, file)
  | (some buf, file) => ((strtok key buf).1, file)

/-- `__load_cfg`, up to `atoi` on the port: the six strings after `trim`, `none` where a
`NULL` is dereferenced. -/
def readCfg (file : Str) : Option Cfg :=
  let ip := cfgField ipK file
  let port := cfgField prtK ip.2
  let cer := cfgField crtK port.2
  let logF := cfgField logK cer.2
  let db := cfgField dbK logF.2
  let tax := cfgField taxK db.2
  do
    let db ← db.1
    let port ← port.1
    let ip ← ip.1
    let cer ← cer.1
    let logF ← logF.1
    let tax ← tax.1
    some ⟨removeEscape ip, removeEscape port, removeEscape cer, removeEscape logF,
      removeEscape db, removeEscape tax⟩

/-! ## Writing -/

/-- `echo "KEY=$VALUE"`. -/
def cfgLine (key value : Str) : Str := key ++ value ++ ['\n']

/-- The file `INSTALL.sh` writes; `enc` is the answer about the log file. -/
def installCfg (c : Cfg) (enc : Bool) : Str :=
  cfgLine ipK c.ip ++ (cfgLine prtK c.port ++ (cfgLine crtK c.cer ++ (cfgLine logK c.logF ++
    (cfgLine dbK c.db ++ (cfgLine taxK c.tax ++
      (cfgLine (lit "SEC=") (if enc then lit "1" else lit "0") ++ lit "\n\n## EOF\n"))))))

/-- A value whose line can be written and read at once. -/
structure CfgValue (key value : Str) : Prop where
  ne_nil : value ≠ []
  plain : ∀ c ∈ value, c ≠ '\n' ∧ c ≠ '\r' ∧ c ≠ '\x00'
  short : (key ++ value).length < 1000

/-- So are the six of them. -/
structure Cfg.Writable (c : Cfg) : Prop where
  ip : CfgValue ipK c.ip
  port : CfgValue prtK c.port
  cer : CfgValue crtK c.cer
  logF : CfgValue logK c.logF
  db : CfgValue dbK c.db
  tax : CfgValue taxK c.tax

/-! ## One line -/

/-- A line gives a token, and the next line is the rest of the file. -/
theorem cfgField_line {key value : Str} (hkey : '\n' ∉ key) (hvalue : CfgValue key value)
    (rest : Str) : ∃ token, cfgField key (cfgLine key value ++ rest) = (some token, rest) ∧
      (removeEscape token = value ↔ ∀ c ∈ value, c ∉ key) := by
  have hline : '\n' ∉ key ++ value := by
    intro h
    rcases List.mem_append.mp h with h | h
    · exact hkey h
    · exact (hvalue.plain _ h).1 rfl
  have hgets : fgets 1023 (cfgLine key value ++ rest) = (some (cfgLine key value), rest) := by
    rw [cfgLine, List.append_assoc]
    exact fgets_line hline (Nat.lt_of_lt_of_le (Nat.succ_lt_succ hvalue.short) (by decide)) rest
  have hskip : strtok key (cfgLine key value) = strtok key (value ++ ['\n']) := by
    rw [cfgLine, List.append_assoc]
    exact strtok_skip (fun _ hc => hc) _
  have hunbroken : removeEscape (value ++ ['\n']) = value := by
    unfold removeEscape
    rw [List.takeWhile_append_of_pos fun c hc => by
      simp [(hvalue.plain c hc).1, (hvalue.plain c hc).2.1]]
    exact List.append_nil value
  -- the line break is never a delimiter
  cases htok : (strtok key (value ++ ['\n'])).1 with
  | none =>
    exact absurd (strtok_none_iff.mp htok '\n' (by simp)) hkey
  | some token =>
    refine ⟨token, ?_, ?_⟩
    · rw [cfgField, hgets]
      show ((strtok key (cfgLine key value)).1, rest) = _
      rw [hskip, htok]
    · constructor
      · rintro rfl c hc
        have hmem : c ∈ token := (List.takeWhile_prefix _).mem hc
        exact ((strtok_some (Prod.ext htok rfl)).2 c hmem).2
      · intro hfree
        have hall : ∀ c ∈ value ++ ['\n'], c ∉ key := by
          intro c hc
          rcases List.mem_append.mp hc with hc | hc
          · exact hfree c hc
          · rwa [List.mem_singleton.mp hc]
        rw [strtok_last (by simp) hall] at htok
        rw [← Option.some.inj htok, hunbroken]

/-! ## The file -/

/-- No value has a character of its own key. -/
structure Cfg.KeyFree (c : Cfg) : Prop where
  ip : ∀ x ∈ c.ip, x ∉ ipK
  port : ∀ x ∈ c.port, x ∉ prtK
  cer : ∀ x ∈ c.cer, x ∉ crtK
  logF : ∀ x ∈ c.logF, x ∉ logK
  db : ∀ x ∈ c.db, x ∉ dbK
  tax : ∀ x ∈ c.tax, x ∉ taxK

/-- **The configuration.** What `__load_cfg` reads of the file that `INSTALL.sh` writes are
the values it was written with if and only if none of them has a character of its key. -/
theorem configSurvives_iff {c : Cfg} (hc : c.Writable) (enc : Bool) :
    readCfg (installCfg c enc) = some c ↔ c.KeyFree := by
  unfold readCfg installCfg
  obtain ⟨ip, hip, hipIff⟩ := cfgField_line (by decide) hc.ip _
  obtain ⟨port, hport, hportIff⟩ := cfgField_line (by decide) hc.port _
  obtain ⟨cer, hcer, hcerIff⟩ := cfgField_line (by decide) hc.cer _
  obtain ⟨logF, hlogF, hlogFIff⟩ := cfgField_line (by decide) hc.logF _
  obtain ⟨db, hdb, hdbIff⟩ := cfgField_line (by decide) hc.db _
  obtain ⟨tax, htax, htaxIff⟩ := cfgField_line (by decide) hc.tax _
  rw [hip]
  dsimp only
  rw [hport]
  dsimp only
  rw [hcer]
  dsimp only
  rw [hlogF]
  dsimp only
  rw [hdb]
  dsimp only
  rw [htax]
  show some (Cfg.mk ..) = some c ↔ _
  rw [Option.some_inj, Cfg.mk.injEq, hipIff, hportIff, hcerIff, hlogFIff, hdbIff, htaxIff]
  exact ⟨fun ⟨h₁, h₂, h₃, h₄, h₅, h₆⟩ => ⟨h₁, h₂, h₃, h₄, h₅, h₆⟩,
    fun h => ⟨h.ip, h.port, h.cer, h.logF, h.db, h.tax⟩⟩

/-- An installation in a directory named in small letters. -/
def thorCfg : Cfg where
  ip := lit "127.0.0.1"
  port := lit "9210"
  cer := lit "/opt/thor/cert.pem"
  logF := lit "/opt/thor/thor.log"
  db := lit "/opt/thor/shop.db"
  tax := lit "17"

theorem thorCfg_writable : thorCfg.Writable where
  ip := ⟨by decide, by decide, by decide⟩
  port := ⟨by decide, by decide, by decide⟩
  cer := ⟨by decide, by decide, by decide⟩
  logF := ⟨by decide, by decide, by decide⟩
  db := ⟨by decide, by decide, by decide⟩
  tax := ⟨by decide, by decide, by decide⟩

theorem thorCfg_keyFree : thorCfg.KeyFree where
  ip := by decide
  port := by decide
  cer := by decide
  logF := by decide
  db := by decide
  tax := by decide

theorem configSurvives_thor : readCfg (installCfg thorCfg true) = some thorCfg :=
  (configSurvives_iff thorCfg_writable true).mpr thorCfg_keyFree

/-- The same in a directory named in capitals. -/
def upperCfg : Cfg := { thorCfg with logF := lit "/opt/THOR/thor.log" }

theorem upperCfg_writable : upperCfg.Writable :=
  ⟨thorCfg_writable.ip, thorCfg_writable.port, thorCfg_writable.cer,
    ⟨by decide, by decide, by decide⟩, thorCfg_writable.db, thorCfg_writable.tax⟩

/-- Its log file is read as `/opt/TH`. -/
theorem not_configSurvives :
    ¬ ∀ (c : Cfg) (enc : Bool), c.Writable → readCfg (installCfg c enc) = some c := by
  intro h
  have hread : (readCfg (installCfg upperCfg true)).map Cfg.logF = some (lit "/opt/TH") := by
    decide +kernel
  rw [h upperCfg true upperCfg_writable] at hread
  exact absurd hread (by decide)

end Thor
