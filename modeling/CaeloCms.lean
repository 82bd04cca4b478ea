import CaeloCms.Lib.Fixpoint
import CaeloCms.Draft.Stage
import CaeloCms.Draft.Undo
import CaeloCms.Draft.FreshWrites
import CaeloCms.Deploy.LeaseSafety
import CaeloCms.Journal.DrainSafety
import CaeloCms.Query.JoinSafety
import CaeloCms.Redirect.CaddyEdge
import CaeloCms.Redirect.UrlMap
import CaeloCms.Staging.GateSafety
import CaeloCms.Redirect.File
import CaeloCms.Deploy.RedirectSafety
import CaeloCms.Deploy.SlotSafety
import CaeloCms.Lists.WriteRead
import CaeloCms.Link.CleanSave
import CaeloCms.Link.Again
import CaeloCms.Link.Spelling
import CaeloCms.Link.Variants
import CaeloCms.Upgrade.RollBack
import CaeloCms.Mcp.GrantSafety
import CaeloCms.Chat.OneTurn
import CaeloCms.Nested.Refs
import CaeloCms.Nested.Dispatched
import CaeloCms.Nested.Complete
import CaeloCms.Template.FieldPaths
import CaeloCms.Template.Content
import CaeloCms.Lists.Revalidate
import CaeloCms.Lists.Diff
import CaeloCms.Lists.PatchSafety
import CaeloCms.Lists.PageOrder
import CaeloCms.Lists.PagePartition
import CaeloCms.Chat.RepairAgain
import CaeloCms.Edit.Erase
import CaeloCms.Edit.Wrapped
import CaeloCms.Chat.Settle
import CaeloCms.Edit.ExactEdits
import CaeloCms.Update.Precedence
import CaeloCms.Staging.AllowList
import CaeloCms.Staging.SessionWrite
import CaeloCms.Staging.OriginRewrite
import CaeloCms.Update.JobCheck
import CaeloCms.Site.HeaderBudget
import CaeloCms.Genesis.DraftHtml
import CaeloCms.Theme.TokenFrame
import CaeloCms.Theme.ThemeInjection
import CaeloCms.Site.LanguageFrame
import CaeloCms.Deploy.BuildRetention
import CaeloCms.Plugin.UrlSlots
import CaeloCms.Deploy.SyncExact
import CaeloCms.Link.Convert
import CaeloCms.Redirect.OpenRedirect
import CaeloCms.Link.RevertExact
import CaeloCms.Shared.IdCut
import CaeloCms.Lists.Overlay
import CaeloCms.Staging.NextPath
import CaeloCms.Lists.OverlayBatches
import CaeloCms.Link.MigrateAgain
