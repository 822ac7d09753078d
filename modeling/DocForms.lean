import DocForms.Cache.Apply
import DocForms.Cache.Regenerate
import DocForms.Cache.Verify
import DocForms.Proofs.Blame
import DocForms.Proofs.Buffer.Agreement
import DocForms.Proofs.Buffer.Tampering
import DocForms.Proofs.Cache.Aftermath
import DocForms.Proofs.Cache.Chronology
import DocForms.Proofs.Cache.Confinement
import DocForms.Proofs.Cache.Editing
import DocForms.Proofs.Cache.Encodable
import DocForms.Proofs.Cache.Freshness
import DocForms.Proofs.Cache.Independence
import DocForms.Proofs.Cache.Reports
import DocForms.Proofs.Cache.Retrieval
import DocForms.Proofs.Cache.Saving
import DocForms.Proofs.Document.Invariants
import DocForms.Proofs.Json.Columns
import DocForms.Proofs.Layout.Numbers
import DocForms.Proofs.Layout.Widths
import DocForms.Proofs.Manifest.Merging
import DocForms.Proofs.Noise
import DocForms.Proofs.Number.Base62
import DocForms.Proofs.Registry
import DocForms.Proofs.Sheet.Names
import DocForms.Proofs.Text.Escapes
import DocForms.Proofs.Text.Splitting
